import Rucbase.Index.IxWellFormed

/-!
# Inserting into and removing from a well-formed tree

The steps of `insert_entry` and `delete_entry` behind `FindLeafPage`. Given the leaf a key
belongs to, they leave a well-formed tree with one entry more or less. Which leaf that is, is
not decided here: an insertion assumes that the key is in the range of its leaf, between the
separators on the way from the root.
-/

namespace Rucbase

open Lib

namespace IxCore

variable {κ : Type}

variable {c : IxCore κ} {h j : Nat} {lay : Nat → List (κ × Int)} {x : Int} {n m : IxNode κ}
  {k : κ} {v : Rid} {A B : List (κ × Int)} {kx : κ}

/-! ## A single leaf -/

/-- The blocks, cut at a leaf. -/
theorem Tree.blocks_at (ht : Tree c h lay) (hcut : lay 0 = A ++ (kx, x) :: B)
    (hn : c.pages x = some n) : c.blocks lay = A.map (fun e => (e.1, c.cont e.2)) ++ [(kx, n.entries)]
      ++ B.map (fun e => (e.1, c.cont e.2)) := by
  have hx : x ∈ names (lay 0) := by
    rw [hcut]
    simp
  have hleaf := ht.isLeaf hx hn
  unfold blocks
  rw [hcut, List.map_append, List.map_cons, cont_of_leaf (view_of_pages hn) hleaf, List.append_assoc]
  rfl

variable [Inhabited κ]

/-- The layers of a tree that is a single leaf. -/
def rootOnly (c : IxCore κ) : Nat → List (κ × Int) := fun _ => [(default, c.hdr.rootPage)]

/-- The pages of an index whose root is a leaf. -/
structure Single (c : IxCore κ) (n : IxNode κ) : Prop where
  page : c.pages c.hdr.rootPage = some n
  leaf : n.isLeaf = true
  parent : n.parent = ixNoPage
  links : n.nextLeaf = ixLeafHeaderPage ∧ n.prevLeaf = ixLeafHeaderPage
  header : ∃ m, c.pages ixLeafHeaderPage = some m ∧ m.nextLeaf = c.hdr.rootPage
    ∧ m.prevLeaf = c.hdr.rootPage
  range : 2 ≤ c.hdr.rootPage ∧ c.hdr.rootPage < c.nextPageNo
  ends : c.hdr.firstLeaf = c.hdr.rootPage ∧ c.hdr.lastLeaf = c.hdr.rootPage
  count : c.hdr.numPages = 3
  order : 3 ≤ c.hdr.btreeOrder
  room : (n.numKey : Int) ≤ c.hdr.btreeOrder

theorem Single.sound (hs : Single c n) : Sound c 0 c.rootOnly := by
  have hview := view_of_pages hs.page
  have hkids : c.kids c.hdr.rootPage = [] := by
    rw [kids_of_view hview]
    exact NodeView.kids_of_leaf hs.leaf
  have hmem : ∀ j w, w ∈ names (c.rootOnly j) → w = c.hdr.rootPage :=
    fun j w hw => List.mem_singleton.mp hw
  refine ⟨?_, ⟨hs.order, ?_⟩, ⟨?_, ?_⟩, ?_, ?_, ?_⟩
  · refine ⟨⟨rfl, ?_, ?_, ?_, ?_, ?_⟩, ?_, ?_, ?_, ?_⟩
    · exact fun j hj => absurd hj (by omega)
    · intro w hw
      rw [hmem 0 w hw, hkids]
    · exact fun j _ => List.nodup_singleton _
    · exact fun i j hi hj _ _ _ => by omega
    · exact fun j hj => absurd hj (by omega)
    · intro j hj w hw
      rw [hmem j w hw, show j = 0 by omega]
      exact ⟨n.view, hview, hs.leaf⟩
    · intro j _ w hw
      rw [hmem j w hw]
      exact hs.range
    · rw [par_of_view hview]
      exact hs.parent
    · exact fun j h1 h2 => absurd h2 (by omega)
  · intro j hj w hw _
    rw [hmem j w hw, SizeOk, size_eq_numKey hs.page]
    exact ⟨hs.room, fun hne => absurd rfl hne, fun _ h1 => by omega⟩
  · obtain ⟨m, hm, _⟩ := hs.header
    rw [hm]
    rfl
  · obtain ⟨m, hm, h1, h2⟩ := hs.header
    show List.IsChain _ [ixLeafHeaderPage, c.hdr.rootPage, ixLeafHeaderPage]
    refine .cons_cons ⟨?_, ?_⟩ (.cons_cons ⟨?_, ?_⟩ (.singleton _))
    · rw [nxt, node_of_some hm, h1]
    · rw [prv, node_of_some hs.page, hs.links.2]
    · rw [nxt, node_of_some hs.page, hs.links.1]
    · rw [prv, node_of_some hm, h2]
  · rw [hs.ends.1]
    rfl
  · rw [hs.ends.2]
    rfl
  · rw [hs.count]
    rfl

theorem Single.stored (hs : Single c n) : c.stored c.rootOnly = n.entries := by
  show c.cont c.hdr.rootPage ++ [] = _
  rw [List.append_nil, cont_of_leaf (view_of_pages hs.page) hs.leaf]
  rfl

variable [LinearOrder κ]

theorem Single.wellFormed (hs : Single c n) (hinc : Increasing n.entries) :
    WellFormed c 0 c.rootOnly := by
  refine hs.sound.wellFormed ?_
  show Separated [(default, c.cont c.hdr.rootPage)]
  rw [Separated.singleton_iff, cont_of_leaf (view_of_pages hs.page) hs.leaf]
  exact hinc

/-- An index of order 3 whose root is a leaf with the keys `1 .. size`. -/
def sample (size : Nat) : IxCore Nat where
  hdr := ⟨ixNoPage, 3, 2, 0, 4, 3, 16, 2, 2⟩
  pages := fun no =>
    if no = 2 then some ⟨ixNoPage, size, true, 1, 1, fun i => i + 1, fun i => ⟨1, i⟩⟩
    else if no = 1 then some ⟨ixNoPage, 0, true, 2, 2, fun _ => 0, fun _ => ⟨0, 0⟩⟩
    else none
  nextPageNo := 3

theorem sample_single {size : Nat} (h : size ≤ 3) : Single (sample size)
    ⟨ixNoPage, size, true, 1, 1, fun i => i + 1, fun i => ⟨1, i⟩⟩ :=
  ⟨rfl, rfl, rfl, ⟨rfl, rfl⟩, ⟨_, rfl, rfl, rfl⟩, ⟨Int.le_refl 2, show (2 : Int) < 3 by decide⟩,
    ⟨rfl, rfl⟩, rfl, Int.le_refl 3, show (size : Int) ≤ 3 by omega⟩

theorem sample_wellFormed {size : Nat} (h : size ≤ 3) :
    WellFormed (sample size) 0 (sample size).rootOnly := by
  refine (sample_single h).wellFormed ?_
  unfold Increasing IxNode.entries
  rw [List.pairwise_map]
  refine List.pairwise_lt_range.imp (fun hab => ?_)
  exact Nat.add_lt_add_right hab 1

/-- An index of order 3 with two leaves below the root, `1 2` and `3 4 5`. -/
def sampleTwo : IxCore Nat where
  hdr := ⟨ixNoPage, 5, 4, 0, 4, 3, 16, 2, 3⟩
  pages := fun no =>
    if no = 2 then some ⟨4, 2, true, 1, 3, fun i => i + 1, fun i => ⟨1, i⟩⟩
    else if no = 3 then some ⟨4, 3, true, 2, 1, fun i => i + 3, fun i => ⟨2, i⟩⟩
    else if no = 4 then some ⟨ixNoPage, 2, false, 0, 0, fun i => 2 * i + 1, fun i => ⟨i + 2, -1⟩⟩
    else if no = 1 then some ⟨ixNoPage, 0, true, 3, 2, fun _ => 0, fun _ => ⟨0, 0⟩⟩
    else none
  nextPageNo := 5

/-- Its layers. -/
def layersTwo : Nat → List (Nat × Int)
  | 0 => [(1, 2), (3, 3)]
  | _ => [(1, 4)]

theorem sampleTwo_tree : Tree sampleTwo 1 layersTwo := by
  have h01 : ∀ j, j ≤ 1 → j = 0 ∨ j = 1 := fun j hj => by omega
  have h0 : ∀ w, w ∈ names (layersTwo 0) → w = 2 ∨ w = 3 := by
    intro w hw
    simpa [layersTwo] using hw
  have h1 : ∀ w, w ∈ names (layersTwo 1) → w = 4 := by
    intro w hw
    simpa [layersTwo] using hw
  refine ⟨⟨rfl, ?_, ?_, ?_, ?_, ?_⟩, ?_, ?_, rfl, ?_⟩
  · intro j hj
    obtain rfl : j = 0 := by omega
    rfl
  · intro w hw
    rcases h0 w hw with rfl | rfl <;> rfl
  · intro j hj
    rcases h01 j hj with rfl | rfl <;> decide
  · intro i j hi hj w hwi hwj
    rcases h01 i hi with rfl | rfl <;> rcases h01 j hj with rfl | rfl
    · rfl
    · rcases h0 w hwi with rfl | rfl <;> exact absurd (h1 _ hwj) (by decide)
    · rcases h0 w hwj with rfl | rfl <;> exact absurd (h1 _ hwi) (by decide)
    · rfl
  · intro j hj w hw u hu
    obtain rfl : j = 0 := by omega
    obtain rfl := h1 w hw
    rcases h0 u hu with rfl | rfl <;> rfl
  · intro j hj w hw
    rcases h01 j hj with rfl | rfl
    · rcases h0 w hw with rfl | rfl <;> exact ⟨_, rfl, rfl⟩
    · obtain rfl := h1 w hw
      exact ⟨_, rfl, rfl⟩
  · intro j hj w hw
    rcases h01 j hj with rfl | rfl
    · rcases h0 w hw with rfl | rfl <;> decide
    · obtain rfl := h1 w hw
      decide
  · exact fun j hj h => absurd hj (by omega)

theorem sampleTwo_wellFormed : WellFormed sampleTwo 1 layersTwo := by
  refine ⟨sampleTwo_tree, ⟨by decide, ?_⟩, ?_, ?_, ⟨rfl, ?_⟩, rfl, rfl, rfl⟩
  · intro j hj w hw _
    obtain rfl | rfl : j = 0 ∨ j = 1 := by omega
    · obtain rfl | rfl : w = 2 ∨ w = 3 := by simpa [layersTwo] using hw
      · exact ⟨by decide, fun _ => by decide, fun h => absurd h (by decide)⟩
      · exact ⟨by decide, fun _ => by decide, fun h => absurd h (by decide)⟩
    · obtain rfl : w = 4 := by simpa [layersTwo] using hw
      exact ⟨by decide, fun h => absurd rfl h, fun _ _ => by decide⟩
  · show List.Pairwise _ [((1 : Nat), (⟨1, 0⟩ : Rid)), (2, ⟨1, 1⟩), (3, ⟨2, 0⟩), (4, ⟨2, 1⟩), (5, ⟨2, 2⟩)]
    simp
  · intro j hj y hy
    obtain rfl : j = 0 := by omega
    obtain rfl : y = 4 := by simpa [layersTwo] using hy
    show List.IsChain _ [((1 : Nat), (2 : Int)), (3, 3)]
    refine .cons_cons ⟨?_, ?_⟩ (.singleton _) <;> decide
  · show List.IsChain _ [(1 : Int), 2, 3, 1]
    exact .cons_cons ⟨rfl, rfl⟩ (.cons_cons ⟨rfl, rfl⟩ (.cons_cons ⟨rfl, rfl⟩ (.singleton _)))

/-! ## One leaf among the blocks -/

/-- The entries of a leaf of a well-formed tree increase. -/
theorem WellFormed.leaf_sorted (hw : WellFormed c h lay) (hx : x ∈ names (lay 0))
    (hn : c.pages x = some n) : Increasing n.entries := by
  obtain ⟨A, kx, B, hcut⟩ := split_of_mem_names hx
  have := hw.separated.sorted (kx, n.entries) (by
    rw [hw.tree.blocks_at hcut hn]
    simp)
  exact this

/-- The only leaf has all the entries. -/
theorem WellFormed.only_leaf (hw : WellFormed c h lay) (h2 : 2 ≤ (c.stored lay).length)
    (hx : x ∈ names (lay 0)) (hn : c.pages x = some n) : h = 0 → 2 ≤ n.numKey := by
  rintro rfl
  obtain ⟨k₀, htop⟩ := hw.tree.layered.top_eq
  have hroot := hw.tree.layered.eq_root hx
  rw [stored, htop, List.flatMap_singleton, ← hroot,
    cont_of_leaf (view_of_pages hn) (hw.tree.isLeaf hx hn)] at h2
  have hlen : n.view.entries.length = n.numKey := IxNode.length_entries
  omega

/-- **Removing an entry of a leaf** takes it out of the entries and leaves the blocks
separated. -/
theorem WellFormed.remove (hw : WellFormed c h lay) (hx : x ∈ names (lay 0))
    (hn : c.pages x = some n) (hk : (k, v) ∈ n.entries) :
    Separated ((c.setNode x (n.remove k)).blocks lay)
      ∧ entriesOf ((c.setNode x (n.remove k)).blocks lay)
        = (c.stored lay).filter (fun e => e.1 ≠ k) := by
  obtain ⟨A, kx, B, hcut⟩ := split_of_mem_names hx
  obtain ⟨L₁, L₂, hent⟩ := List.append_of_mem hk
  have hinc := hw.leaf_sorted hx hn
  have hsep := hw.separated
  have hrem := (IxNode.entries_remove hinc hent).1
  have hold := hw.tree.blocks_at hcut hn
  have hnew := hw.tree.blocks_setLeaf hcut (m := n.remove k)
    (IxNode.remove_fields.1.trans (hw.tree.isLeaf hx hn))
  rw [hrem] at hnew
  rw [hold, hent] at hsep
  rw [hnew]
  refine ⟨hsep.erase, ?_⟩
  have hsorted := hw.sorted
  rw [← entriesOf_blocks, hold, hent] at hsorted ⊢
  simp only [entriesOf_append] at hsorted ⊢
  simp only [entriesOf, List.flatMap_cons, List.flatMap_nil, List.append_nil] at hsorted ⊢
  generalize List.flatMap Prod.snd (A.map fun e => (e.1, c.cont e.2)) = a at *
  generalize List.flatMap Prod.snd (B.map fun e => (e.1, c.cont e.2)) = b at *
  have hshape : a ++ (L₁ ++ (k, v) :: L₂) ++ b = (a ++ L₁) ++ (k, v) :: (L₂ ++ b) := by simp
  rw [hshape] at hsorted ⊢
  rw [hsorted.filter_ne (e := (k, v))]
  simp

/-! ## The range of a leaf -/

/-- `k` is in the range of the leaf `x`: on the way up from it, at least every separator to the
left and below every separator to the right. The first key of a node separates nothing. -/
def InRange (c : IxCore κ) (h : Nat) (x : Int) (k : κ) : Prop :=
  ∀ j, j < h → ∀ M₁ kz M₂, c.kids (c.par^[j + 1] x) = M₁ ++ (kz, c.par^[j] x) :: M₂ →
    (∀ e ∈ (M₁ ++ [(kz, c.par^[j] x)]).tail, e.1 ≤ k) ∧ ∀ e ∈ M₂, k < e.1

/-- The label of a node is not above those of its children. -/
theorem WellFormed.label_le (hw : WellFormed c h lay) (hj : j + 1 < h) {kz : κ} {z : Int}
    (hcut : lay (j + 1) = A ++ (kz, z) :: B) {g e : κ × Int} (hg : g ∈ B)
    (he : e ∈ c.kids g.2) : g.1 ≤ e.1 := by
  have hgmem : g ∈ lay (j + 1) := by
    rw [hcut]
    exact List.mem_append_right _ (List.mem_cons_of_mem _ hg)
  have hlabel := hw.tree.labels (j + 1) (by omega) hj g hgmem
  have hsep := hw.separatedAt (j := j + 1) (by omega)
  have hkids := hw.tree.separated_kids hw.sizes (j := j) (by omega) (List.mem_map_of_mem hgmem)
    (hw.separators j (by omega) g.2 (List.mem_map_of_mem hgmem))
    (hsep.sorted (g.1, c.under (j + 1) g.2) (List.mem_map_of_mem hgmem))
  cases hk : c.kids g.2 with
  | nil =>
      rw [hk] at he
      exact absurd he (by simp)
  | cons b₀ bs =>
      rw [hk] at hlabel hkids he
      have hb₀ : b₀.1 = g.1 := Option.some.inj hlabel
      rcases List.mem_cons.mp he with rfl | he
      · exact le_of_eq hb₀.symm
      · -- some entry is under the first child: the label is not above it, the key of `e` is
        have hmem₀ : b₀.2 ∈ names (lay j) :=
          hw.tree.layered.kid_mem (by omega) (List.mem_map_of_mem hgmem) (by rw [hk]; simp)
        obtain ⟨f, hf⟩ := List.exists_mem_of_ne_nil _
          (hw.tree.under_ne_nil hw.sizes (by omega) hmem₀)
        have hup : Before (kz, c.under (j + 1) z) (g.1, c.under (j + 1) g.2) := by
          have := hsep.apart
          unfold blocksAt at this
          rw [hcut, List.map_append, List.map_cons] at this
          exact (List.pairwise_cons.mp (List.pairwise_append.mp this).2.1).1 _
            (List.mem_map_of_mem hg)
        have hfg : f ∈ c.under (j + 1) g.2 := by
          show f ∈ (c.kids g.2).flatMap _
          rw [hk, List.flatMap_cons]
          exact List.mem_append_left _ hf
        have hlast := (List.pairwise_cons.mp hkids.apart).1 (e.1, c.under j e.2)
          (List.mem_map_of_mem he)
        exact (hup.2 f hfg).trans (le_of_lt (hlast.1 f hf))

/-- In every layer, a key in range is not below the label of the node it belongs to, and below
those to the right. -/
theorem InRange.layer (hr : InRange c h x k) (hw : WellFormed c h lay) (hx : x ∈ names (lay 0))
    (hj : j ≤ h) : ∃ A kz B, lay j = A ++ (kz, c.par^[j] x) :: B ∧ (A ≠ [] → kz ≤ k)
      ∧ ∀ e ∈ B, k < e.1 := by
  have hpath : ∀ i, i ≤ h → c.par^[i] x ∈ names (lay i) := by
    intro i hi
    induction i with
    | zero => exact hx
    | succ i ih =>
        obtain ⟨P, ky, Q, _, _, _, hP, _⟩ := hw.tree.layered.locate (by omega) (ih (by omega))
        rw [Function.iterate_succ_apply', hP]
        simp
  -- downwards from the root
  obtain ⟨d, hd⟩ : ∃ d, j + d = h := ⟨h - j, by omega⟩
  induction d generalizing j with
  | zero =>
      obtain rfl : j = h := by omega
      obtain ⟨k₀, htop⟩ := hw.tree.layered.top_eq
      refine ⟨[], k₀, [], ?_, fun hne => absurd rfl hne, by simp⟩
      rw [htop, hw.tree.layered.eq_root (hpath j (Nat.le_refl _))]
      rfl
  | succ d ih =>
      obtain ⟨A, kz, B, hcut, hA, hB⟩ := ih (j := j + 1) (by omega) (by omega)
      obtain ⟨_, _, _, M₁, kx, M₂, _, hkids⟩ := hw.tree.layered.locate (by omega) (hpath j (by omega))
      rw [← Function.iterate_succ_apply' c.par j x] at hkids
      obtain ⟨hleft, hright⟩ := hr j (by omega) M₁ kx M₂ hkids
      refine ⟨Lib.below c.kids A ++ M₁, kx, M₂ ++ Lib.below c.kids B, ?_, ?_, ?_⟩
      · rw [hw.tree.layered.layer_eq (by omega) hcut, hkids]
        simp
      · intro hne
        cases M₁ with
        | cons e M₁ => exact hleft (kx, c.par^[j] x) (by simp)
        | nil =>
            -- a first child has the label of its parent
            have hAne : A ≠ [] := by
              rintro rfl
              exact hne rfl
            have hlt : j + 1 < h := by
              by_contra hge
              obtain ⟨k₀, htop⟩ := hw.tree.layered.top_eq
              rw [show j + 1 = h by omega, htop] at hcut
              cases A with
              | nil => exact hAne rfl
              | cons a A =>
                  have := congrArg List.length hcut
                  simp at this
            have hlabel := hw.tree.labels (j + 1) (by omega) hlt (kz, c.par^[j + 1] x) (by
              rw [hcut]
              simp)
            rw [hkids] at hlabel
            have : kx = kz := Option.some.inj hlabel
            rw [this]
            exact hA hAne
      · intro e he
        rcases List.mem_append.mp he with he | he
        · exact hright e he
        · obtain ⟨g, hg, heg⟩ := List.mem_flatMap.mp he
          have hlt : j + 1 < h := by
            by_contra hge
            obtain ⟨k₀, htop⟩ := hw.tree.layered.top_eq
            rw [show j + 1 = h by omega, htop] at hcut
            have := congrArg List.length hcut
            have hpos := List.length_pos_of_mem hg
            simp only [List.length_cons, List.length_nil, List.length_append] at this
            omega
          exact lt_of_lt_of_le (hB g hg) (hw.label_le hlt hcut hg heg)

/-- **Inserting into the leaf a key belongs to** puts it among the entries and leaves the blocks
separated. -/
theorem WellFormed.insert (hw : WellFormed c h lay) (hx : x ∈ names (lay 0))
    (hn : c.pages x = some n) (hk : ∀ e ∈ c.stored lay, e.1 ≠ k) (hr : InRange c h x k) :
    Separated ((c.setNode x (n.insert k v)).blocks lay)
      ∧ ∃ S₁ S₂, c.stored lay = S₁ ++ S₂
        ∧ entriesOf ((c.setNode x (n.insert k v)).blocks lay) = S₁ ++ (k, v) :: S₂ := by
  obtain ⟨A, kx, B, hcut, hA, hB⟩ := hr.layer hw hx (Nat.zero_le _)
  rw [Function.iterate_zero_apply] at hcut
  have hold := hw.tree.blocks_at hcut hn
  have hnk : ∀ e ∈ n.entries, e.1 ≠ k := by
    intro e he
    refine hk e ?_
    rw [← entriesOf_blocks, hold, mem_entriesOf]
    exact ⟨(kx, n.entries), by simp, he⟩
  obtain ⟨L₁, L₂, hent, hins, h₁, h₂⟩ := IxNode.entries_insert (v := v) (hw.leaf_sorted hx hn) hnk
  have hnew := hw.tree.blocks_setLeaf hcut (m := n.insert k v)
    (IxNode.insert_fields.1.trans (hw.tree.isLeaf hx hn))
  have hsep := hw.separated
  rw [hold, hent] at hsep
  rw [hnew, hins]
  refine ⟨hsep.insert h₁ h₂ (fun hne => hA ?_) (fun b hb => ?_), ?_⟩
  · rintro rfl
    exact hne rfl
  · obtain ⟨e, he, rfl⟩ := List.mem_map.mp hb
    exact hB e he
  · rw [← entriesOf_blocks, hold, hent]
    simp only [entriesOf_append]
    simp only [entriesOf, List.flatMap_cons, List.flatMap_nil, List.append_nil]
    exact ⟨List.flatMap Prod.snd (A.map fun e => (e.1, c.cont e.2)) ++ L₁,
      L₂ ++ List.flatMap Prod.snd (B.map fun e => (e.1, c.cont e.2)), by simp, by simp⟩

end IxCore

namespace IxIndexHandle

open IxCore

variable {κ : Type} [LinearOrder κ] [Inhabited κ] {c : IxCore κ} {h : Nat}
  {lay : Nat → List (κ × Int)} {x : Int} {n : IxNode κ} {k : κ} {v : Rid}

/-- `delete_entry` from the leaf on, in a well-formed tree. -/
theorem yields_remove (hw : WellFormed c h lay) (h2 : 2 ≤ (c.stored lay).length)
    (hx : x ∈ names (lay 0)) (hn : c.pages x = some n) (hk : (k, v) ∈ n.entries) {fuel : Nat}
    (hfuel : h + 3 ≤ fuel) : Yields (removeFromLeaf fuel x k) c (fun a c' => a = true
      ∧ ∃ h' lay', WellFormed c' h' lay'
        ∧ c'.stored lay' = (c.stored lay).filter (fun e => e.1 ≠ k)) := by
  obtain ⟨hsep, hent⟩ := hw.remove hx hn hk
  refine (yields_removeFromLeaf hw.sound hx hn (hw.leaf_sorted hx hn) hk
    (hw.only_leaf h2 hx hn) hfuel).mono ?_
  rintro a c' ⟨ha, h', lay', hsound, hkeeps, _⟩
  refine ⟨ha, h', lay', hsound.wellFormed (hkeeps.separated hsep), ?_⟩
  rw [← entriesOf_blocks, hkeeps.same, hent]

/-- **Deletion keeps the tree well-formed.** -/
theorem removeFromLeaf_wellFormed (hw : WellFormed c h lay) (h2 : 2 ≤ (c.stored lay).length)
    (hx : x ∈ names (lay 0)) (hn : c.pages x = some n) (hk : (k, v) ∈ n.entries) :
    ∃ rounds, ∀ fuel, rounds ≤ fuel → Yields (removeFromLeaf fuel x k) c (fun a c' => a = true
      ∧ ∃ h' lay', WellFormed c' h' lay'
        ∧ c'.stored lay' = (c.stored lay).filter (fun e => e.1 ≠ k)) :=
  ⟨h + 3, fun _ hfuel => yields_remove hw h2 hx hn hk hfuel⟩

/-- The leaf `1 2` borrows the first entry of the leaf `3 4 5`. -/
theorem removeFromLeaf_wellFormed_sampleTwo : ∃ rounds, ∀ fuel, rounds ≤ fuel →
    Yields (removeFromLeaf fuel 2 1) sampleTwo (fun a c' => a = true ∧ ∃ h' lay',
      WellFormed c' h' lay'
        ∧ c'.stored lay' = [(2, ⟨1, 1⟩), (3, ⟨2, 0⟩), (4, ⟨2, 1⟩), (5, ⟨2, 2⟩)]) :=
  removeFromLeaf_wellFormed (v := ⟨1, 0⟩) sampleTwo_wellFormed (by decide) (by decide) rfl
    (by decide)

/-- `insert_entry` from the leaf on, in a well-formed tree. -/
theorem yields_insert (hw : WellFormed c h lay) (hx : x ∈ names (lay 0))
    (hk : ∀ e ∈ c.stored lay, e.1 ≠ k) (hr : InRange c h x k) {fuel : Nat} (hfuel : h < fuel) :
    Yields (insertIntoLeaf fuel x k v) c (fun a c' => a = true ∧ ∃ h' lay', WellFormed c' h' lay'
      ∧ ∃ S₁ S₂, c.stored lay = S₁ ++ S₂ ∧ c'.stored lay' = S₁ ++ (k, v) :: S₂) := by
  obtain ⟨n, hn, _⟩ := hw.tree.view_some (Nat.zero_le _) hx
  obtain ⟨hsep, S₁, S₂, hS, hent⟩ := hw.insert (v := v) hx hn hk hr
  refine (yields_insertIntoLeaf hw.sound hx hn hfuel).mono ?_
  rintro a c' ⟨ha, h', lay', hsound, hkeeps, _⟩
  refine ⟨ha, h', lay', hsound.wellFormed (hkeeps.separated hsep), S₁, S₂, hS, ?_⟩
  rw [← entriesOf_blocks, hkeeps.same, hent]

/-- **Insertion keeps the tree well-formed.** -/
theorem insertIntoLeaf_wellFormed (hw : WellFormed c h lay) (hx : x ∈ names (lay 0))
    (hk : ∀ e ∈ c.stored lay, e.1 ≠ k) (hr : InRange c h x k) :
    ∃ rounds, ∀ fuel, rounds ≤ fuel → Yields (insertIntoLeaf fuel x k v) c (fun a c' => a = true
      ∧ ∃ h' lay', WellFormed c' h' lay' ∧ ∃ S₁ S₂, c.stored lay = S₁ ++ S₂
        ∧ c'.stored lay' = S₁ ++ (k, v) :: S₂) :=
  ⟨h + 1, fun _ hfuel => yields_insert hw hx hk hr hfuel⟩

theorem insertIntoLeaf_wellFormed_sample : ∃ rounds, ∀ fuel, rounds ≤ fuel →
    Yields (insertIntoLeaf fuel 2 7 ⟨4, 5⟩) (sample 3) (fun a c' => a = true ∧ ∃ h' lay',
      WellFormed c' h' lay' ∧ ∃ S₁ S₂, (sample 3).stored (sample 3).rootOnly = S₁ ++ S₂
        ∧ c'.stored lay' = S₁ ++ (7, ⟨4, 5⟩) :: S₂) :=
  insertIntoLeaf_wellFormed (sample_wellFormed (by decide)) (by decide) (by decide)
    (fun j hj => absurd hj (by omega))

end IxIndexHandle

end Rucbase
