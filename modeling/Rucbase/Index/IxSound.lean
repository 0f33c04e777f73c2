import Rucbase.Index.IxInsert

/-!
# An index in order

`Sound c h lay`: a tree with all sizes in bounds, its leaves in a ring behind the header page,
and a file header that knows the ends of the ring and the number of pages. The order of keys is
kept apart, in the `blocks` of entries the leaves make up.

Here: putting other entries into a leaf, and inserting into a leaf with everything that may
follow from it.
-/

namespace Rucbase

open Lib

namespace IxCore

variable {κ : Type}

structure Sound [Inhabited κ] (c : IxCore κ) (h : Nat) (lay : Nat → List (κ × Int)) : Prop where
  tree : Tree c h lay
  sizes : Sizes c h lay []
  ring : LeafRing c (names (lay 0))
  first : (names (lay 0)).head? = some c.hdr.firstLeaf
  last : (names (lay 0)).getLast? = some c.hdr.lastLeaf
  count : c.hdr.numPages = nodes h lay + 2

variable {c c' : IxCore κ} {h j : Nat} {lay : Nat → List (κ × Int)} {x : Int} {n m : IxNode κ}
  {A B : List (κ × Int)} {kx : κ}

/-! ## Other entries in a leaf -/

section

variable (ht : Tree c h lay) (hx : x ∈ names (lay 0)) (hn : c.pages x = some n)
  (hleaf : m.isLeaf = n.isLeaf) (hpar : m.parent = n.parent)

include ht hx hn

theorem Tree.isLeaf : n.isLeaf = true := by
  obtain ⟨n', hn', hl⟩ := ht.view_some (Nat.zero_le _) hx
  rw [hn, Option.some.injEq] at hn'
  rw [hn', hl]
  rfl

include hleaf in
theorem Tree.kids_setLeaf : (c.setNode x m).kids = c.kids := by
  have hl := ht.isLeaf hx hn
  funext w
  unfold kids
  rw [view_setNode]
  by_cases hw : w = x
  · rw [if_pos hw, hw, view_of_pages hn, Option.map_some, Option.map_some, Option.getD_some,
      Option.getD_some, NodeView.kids_of_leaf (v := m.view) (hleaf.trans hl),
      NodeView.kids_of_leaf (v := n.view) hl]
  · rw [if_neg hw]

omit ht hx in
include hpar in
theorem par_setLeaf : (c.setNode x m).par = c.par := by
  funext w
  unfold par
  rw [view_setNode]
  by_cases hw : w = x
  · rw [if_pos hw, hw, view_of_pages hn]
    exact hpar
  · rw [if_neg hw]

include hleaf hpar

theorem Tree.setLeaf : Tree (c.setNode x m) h lay := by
  have hkids := ht.kids_setLeaf hx hn hleaf
  have hpars := par_setLeaf hn hpar
  constructor
  case layered =>
    rw [hkids, hpars]
    exact ht.layered
  case kind =>
    intro j hj w hw
    rw [view_setNode]
    by_cases hwx : w = x
    · have h0 := ht.layered.apart j 0 hj (Nat.zero_le _) w hw (hwx ▸ hx)
      rw [if_pos hwx, h0]
      exact ⟨_, rfl, hleaf.trans (ht.isLeaf hx hn)⟩
    · rw [if_neg hwx]
      exact ht.kind j hj w hw
  case range => exact ht.range
  case rootPar =>
    rw [hpars]
    exact ht.rootPar
  case labels =>
    rw [hkids]
    exact ht.labels

end

theorem size_setNode {w : Int} :
    (c.setNode x m).size w = if w = x then m.numKey else c.size w := by
  unfold size
  rw [view_setNode]
  by_cases hw : w = x
  · rw [if_pos hw, if_pos hw]
    exact IxNode.length_entries
  · rw [if_neg hw, if_neg hw]

theorem Sizes.setLeaf (hs : Sizes c h lay []) : Sizes (c.setNode x m) h lay [x] := by
  refine ⟨hs.1, fun j hj w hw hwx => ?_⟩
  have hold := hs.2 j hj w hw (by simp)
  unfold SizeOk at hold ⊢
  rw [size_setNode, if_neg (by simpa using hwx)]
  exact hold

theorem LeafRing.setLeaf [Inhabited κ] {l : List Int} (hr : LeafRing c l) (hn : c.pages x = some n)
    (hnext : m.nextLeaf = n.nextLeaf) (hprev : m.prevLeaf = n.prevLeaf) :
    LeafRing (c.setNode x m) l := by
  refine ⟨isSome_setNode hr.header, hr.ring.congr (fun w _ => ?_) (fun w _ => ?_)⟩
  · rw [nxt_setNode]
    split
    · next h => rw [h, hnext, nxt, node_of_some hn]
    · rfl
  · rw [prv_setNode]
    split
    · next h => rw [h, hprev, prv, node_of_some hn]
    · rfl

/-- The leaves of a tree, cut at one of them. -/
theorem Tree.cut_leaf (ht : Tree c h lay) (hcut : lay 0 = A ++ (kx, x) :: B) :
    ∀ e, e ∈ A ∨ e ∈ B → e.2 ≠ x := by
  rintro e he rfl
  have hnd := ht.layered.nodup 0 (Nat.zero_le _)
  rw [hcut, names, List.map_append, List.map_cons, List.nodup_append, List.nodup_cons] at hnd
  rcases he with he | he
  · exact hnd.2.2 e.2 (List.mem_map_of_mem he) e.2 (by simp) rfl
  · exact hnd.2.1.1 (List.mem_map.mpr ⟨e, he, rfl⟩)

/-- Changing the entries of one leaf changes its block. -/
theorem Tree.blocks_setLeaf (ht : Tree c h lay) (hcut : lay 0 = A ++ (kx, x) :: B)
    (hleaf : m.isLeaf = true) : (c.setNode x m).blocks lay
      = A.map (fun e => (e.1, c.cont e.2)) ++ [(kx, m.entries)]
        ++ B.map (fun e => (e.1, c.cont e.2)) := by
  have hside : ∀ e, e ∈ A ∨ e ∈ B → (e.1, (c.setNode x m).cont e.2) = (e.1, c.cont e.2) := by
    intro e he
    unfold cont
    rw [view_setNode, if_neg (ht.cut_leaf hcut e he)]
  have hat : (c.setNode x m).cont x = m.entries :=
    cont_of_leaf (v := m.view) (by rw [view_setNode, if_pos rfl]) hleaf
  unfold blocks
  rw [hcut, List.map_append, List.map_cons, hat,
    List.map_congr_left (fun e he => hside e (.inl he)),
    List.map_congr_left (l := B) (fun e he => hside e (.inr he)), List.append_assoc]
  rfl

/-! ## Inserting into a leaf -/

/-- The leaves after a split among them, and the blocks they make up. -/
theorem Tree.leaves_hung [LinearOrder κ] [Inhabited κ] {lay' : Nat → List (κ × Int)} {kx' : κ}
    (ht : Tree c h lay)
    (hcs : CanSplit c x n) (hbig : 2 ≤ n.numKey) (hleaf : n.isLeaf = true)
    (hcut : lay 0 = A ++ [(kx, x)] ++ B)
    (hcut' : lay' 0 = A ++ [(kx', x), (c.newKey x, (c.nextPageNo : Int))] ++ B)
    (hlabel : 0 < h → kx' = kx) (hagree : ∀ w ∈ names (lay' 0), Agree (c.split x) c' w) :
    Keeps (c.blocks lay) (c'.blocks lay') := by
  have hn := hcs.here
  obtain ⟨nz, hnz, hzview, hzhead⟩ := upper_head hcs hbig
  have hcutx : lay 0 = A ++ (kx, x) :: B := by
    rw [hcut, List.append_assoc]
    rfl
  have hxz : (c.nextPageNo : Int) ≠ x := by
    have := hcs.lt
    omega
  have hold : ∀ e, e ∈ A ∨ e ∈ B → (e.1, c'.cont e.2) = (e.1, c.cont e.2) := by
    intro e he
    have hmem : e.2 ∈ names (lay 0) := by
      rw [hcut, Layered.mem_rewritten]
      exact .inr (he.imp List.mem_map_of_mem List.mem_map_of_mem)
    have hmem' : e.2 ∈ names (lay' 0) := by
      rw [hcut', Layered.mem_rewritten]
      exact .inr (he.imp List.mem_map_of_mem List.mem_map_of_mem)
    have hlt := (ht.range 0 (Nat.zero_le _) _ hmem).2
    rw [(hagree _ hmem').cont, (agree_split hcs (ht.cut_leaf hcutx e he) (by omega)).cont]
  have hcx : c'.cont x = (lower n.view).entries := by
    rw [(hagree x (by rw [hcut']; simp)).cont]
    exact cont_of_leaf (by rw [view_split hcs, if_pos rfl]) hleaf
  have hcz : c'.cont c.nextPageNo = (upper n.view).entries := by
    rw [(hagree c.nextPageNo (by rw [hcut']; simp)).cont]
    exact cont_of_leaf (by rw [view_split hcs, if_neg hxz, if_pos rfl]) hleaf
  have hblocks : c.blocks lay = A.map (fun e => (e.1, c.cont e.2))
      ++ [(kx, (lower n.view).entries ++ (upper n.view).entries)]
      ++ B.map (fun e => (e.1, c.cont e.2)) := by
    have hcont : c.cont x = (lower n.view).entries ++ (upper n.view).entries := by
      rw [entries_halves, cont_of_leaf (view_of_pages hn) hleaf]
    unfold blocks
    rw [hcut, List.map_append, List.map_append, ← hcont]
    rfl
  have hblocks' : c'.blocks lay' = A.map (fun e => (e.1, c.cont e.2))
      ++ [(kx', (lower n.view).entries), (c.newKey x, (upper n.view).entries)]
      ++ B.map (fun e => (e.1, c.cont e.2)) := by
    unfold blocks
    rw [hcut', List.map_append, List.map_append,
      List.map_congr_left (fun e he => hold e (.inl he)),
      List.map_congr_left (l := B) (fun e he => hold e (.inr he))]
    simp only [List.map_cons, List.map_nil, hcx, hcz]
  -- the new block is labelled with its first key
  have hkey : c.newKey x = nz.keys 0 := by rw [newKey, node_of_some hnz]
  cases hup : (upper n.view).entries with
  | nil =>
      rw [hup] at hzhead
      exact absurd hzhead (by simp)
  | cons e l =>
      rw [hup, List.head?_cons, Option.some.injEq] at hzhead
      have hek : c.newKey x = e.1 := by rw [hkey, hzhead]
      rw [hblocks, hblocks', hup, hek]
      refine Keeps.cut.trans ?_
      rcases Nat.eq_zero_or_pos h with h0 | hpos
      · -- a single leaf: its label is as good as any
        obtain ⟨k0, hk0⟩ := ht.layered.top_eq
        rw [h0, hcutx] at hk0
        have hlen := congrArg List.length hk0
        simp only [List.length_append, List.length_cons, List.length_nil] at hlen
        rw [List.length_eq_zero_iff.mp (show A.length = 0 by omega)]
        exact Keeps.relabel
      · rw [hlabel hpos]
        exact Keeps.refl

/-- The header page is no leaf, and no leaf is listed twice. -/
theorem Tree.ring_nodup (ht : Tree c h lay) : (ixLeafHeaderPage :: names (lay 0)).Nodup := by
  refine List.nodup_cons.mpr ⟨fun hmem => ?_, ht.layered.nodup 0 (Nat.zero_le _)⟩
  have := (ht.range 0 (Nat.zero_le _) _ hmem).1
  exact absurd this (by decide)

variable [Inhabited κ]

/-- A page of the ring is there, and below the counter. -/
theorem Tree.ring_page (ht : Tree c h lay) (hr : LeafRing c (names (lay 0))) {w : Int}
    (hw : w ∈ ixLeafHeaderPage :: names (lay 0)) :
    (c.pages w).isSome ∧ 1 ≤ w ∧ w < c.nextPageNo := by
  rcases List.mem_cons.mp hw with rfl | hw
  · have h2 := ht.below.1
    refine ⟨hr.header, by decide, ?_⟩
    show (1 : Int) < c.nextPageNo
    omega
  · have := ht.range 0 (Nat.zero_le _) w hw
    exact ⟨ht.isSome (Nat.zero_le _) hw, by omega, this.2⟩

/-- **The ring after a leaf was split.** -/
theorem Tree.ring_hung {lay' : Nat → List (κ × Int)} {kx' : κ} (ht : Tree c h lay)
    (hr : LeafRing c (names (lay 0))) (hcs : CanSplit c x n) (hleaf : n.isLeaf = true)
    (hcut : lay 0 = A ++ [(kx, x)] ++ B)
    (hcut' : lay' 0 = A ++ [(kx', x), (c.newKey x, (c.nextPageNo : Int))] ++ B)
    (hnxt : ∀ w : Int, w ≤ c.nextPageNo → c'.nxt w = (c.split x).nxt w)
    (hprv : ∀ w : Int, w ≤ c.nextPageNo → c'.prv w = (c.split x).prv w)
    (hpages : ∀ w, ((c.split x).pages w).isSome → (c'.pages w).isSome) :
    LeafRing c' (names (lay' 0)) := by
  have hl : (c.node x).isLeaf = true := by rw [node_of_some hcs.here, hleaf]
  have hnames : names (lay 0) = names A ++ x :: names B := by
    rw [hcut, names, List.map_append, List.map_append, List.append_assoc]
    rfl
  have hnames' : names (lay' 0) = names A ++ x :: (c.nextPageNo : Int) :: names B := by
    rw [hcut', names, List.map_append, List.map_append, List.append_assoc]
    rfl
  have hnd := ht.ring_nodup
  have hring := hr.ring
  have hpage := fun w hw => ht.ring_page hr (w := w) hw
  rw [hnames] at hnd hring hpage
  have hnext := hpage _ (hring.next_mem (x := x) (by simp))
  have hne : c.nxt x ≠ ixNoPage := fun heq => by
    have := hnext.2.1
    rw [heq] at this
    exact absurd this (by decide)
  have hnz : c.nxt x ≠ c.nextPageNo := by omega
  have hxz : x ≠ c.nextPageNo := by
    have := hcs.lt
    omega
  -- the new leaf comes right behind `x`
  have hlink : Ring (c.split x).nxt (c.split x).prv ixLeafHeaderPage
      (names A ++ x :: (c.nextPageNo : Int) :: names B) := by
    refine hring.link hnd (fun hmem => ?_) ?_ ?_ ?_ ?_ ?_ ?_
    · have := (hpage _ hmem).2.2
      omega
    · rw [nxt_split_leaf hl, if_pos rfl]
    · rw [nxt_split_leaf hl, if_neg (Ne.symm hxz), if_pos rfl]
    · rw [prv_split_leaf hl hxz hnz hne, if_pos rfl]
    · rw [prv_split_leaf hl hxz hnz hne, if_neg hnz, if_pos rfl]
    · intro w h1 h2
      rw [nxt_split_leaf hl, if_neg h1, if_neg h2]
    · intro w h1 h2
      rw [prv_split_leaf hl hxz hnz hne, if_neg h2, if_neg h1]
  -- what is done above the leaves leaves their links alone
  have hle : ∀ w ∈ ixLeafHeaderPage :: (names A ++ x :: (c.nextPageNo : Int) :: names B),
      w ≤ c.nextPageNo := by
    intro w hw
    by_cases hwz : w = c.nextPageNo
    · omega
    · have := (hpage w (by
        simp only [List.mem_cons, List.mem_append] at hw ⊢
        tauto)).2.2
      omega
  rw [hnames']
  refine ⟨hpages _ (isSome_split hcs hr.header), hlink.congr ?_ ?_⟩
  · exact fun w hw => hnxt w (hle w hw)
  · exact fun w hw => hprv w (hle w hw)

end IxCore

namespace IxIndexHandle

open IxCore

variable {κ : Type} [LinearOrder κ] [Inhabited κ] {c : IxCore κ} {h : Nat}
  {lay : Nat → List (κ × Int)} {x : Int} {n : IxNode κ} {k : κ} {v : Rid} {fuel : Nat}

/-- **`insert_entry` from the leaf on**: the index stays in order, with the blocks of the leaves
after `Insert`, perhaps one of them cut. -/
theorem yields_insertIntoLeaf (hs : Sound c h lay) (hx : x ∈ names (lay 0))
    (hn : c.pages x = some n) (hfuel : h < fuel) :
    Yields (insertIntoLeaf fuel x k v) c (fun a c' => a = true ∧ ∃ h' lay', Sound c' h' lay'
      ∧ Keeps ((c.setNode x (n.insert k v)).blocks lay) (c'.blocks lay')
      ∧ c'.hdr.btreeOrder = c.hdr.btreeOrder) := by
  obtain ⟨hfl, hfp, hfn, hfv⟩ := IxNode.insert_fields (n := n) (k := k) (v := v)
  obtain ⟨hge, hle⟩ := IxNode.numKey_insert (n := n) (k := k) (v := v)
  have hleaf := hs.tree.isLeaf hx hn
  have hsize := hs.sizes.2 0 (Nat.zero_le _) x hx (by simp)
  have horder := hs.sizes.1
  have ht₁ := hs.tree.setLeaf hx hn hfl hfp
  have hs₁ := hs.sizes.setLeaf (x := x) (m := n.insert k v)
  have hr₁ := hs.ring.setLeaf hn hfn hfv
  generalize hm : n.insert k v = m at *
  have hpm : (c.setNode x m).pages x = some m := setNode_pages_self
  unfold insertIntoLeaf
  refine (yields_modifyNode hn).then_do ?_
  rw [hm]
  refine Yields.get_bind (fun s hsat => ?_)
  have hmax : s.fileHdr.maxSize = c.hdr.btreeOrder + 1 := by
    rw [hsat.fileHdr]
    rfl
  have hlast : s.fileHdr.lastLeaf = c.hdr.lastLeaf := by
    rw [hsat.fileHdr]
    rfl
  rw [hsat.node, node_of_some hpm, hmax, hlast]
  rw [SizeOk, size_eq_numKey hn] at hsize
  by_cases hfull : (m.numKey : Int) = c.hdr.btreeOrder + 1
  · -- one entry too many
    rw [onlyIf_pos hfull]
    have hnext : (0 : Nat) = 0 → ((c.setNode x m).pages ((c.setNode x m).nxt x)).isSome :=
      fun _ => (ht₁.ring_page hr₁ (hr₁.ring.next_mem hx)).1
    have hcs := ht₁.canSplit (Nat.zero_le _) hx hpm hnext
    have hkids : m.isLeaf = false → ∀ i, i < m.numKey →
        ((c.setNode x m).pages (m.rids i).pageNo).isSome := by
      intro hl
      rw [hfl, hleaf] at hl
      exact absurd hl (by simp)
    rw [bind_assoc]
    refine (yields_split ht₁.below hpm hcs.lt hcs.next hkids).then_at ?_
    rw [bind_assoc]
    refine Yields.get_bind (fun t htat => ?_)
    rw [bind_assoc, htat.node]
    refine (yields_insertIntoParent ht₁ (Nat.zero_le _) hx hcs hs₁ hfull (by omega)).bind
      (fun _ c₂ hung => ?_)
    obtain ⟨h', lay', ht', hs', _, ⟨A, kx, kx', B, hcut, hcut', hlabel⟩, hagree, hcount⟩ := hung.tree
    have hkeeps := ht₁.leaves_hung hcs (by omega) (hfl.trans hleaf) hcut hcut' hlabel
      (fun w hw => hagree 0 (Nat.le_refl _) w hw)
    have hring := ht₁.ring_hung hr₁ hcs (hfl.trans hleaf) hcut hcut' hung.nxt hung.prv hung.pages
    have hhdr : c₂.hdr = { c.hdr with rootPage := c₂.hdr.rootPage, numPages := c₂.hdr.numPages } :=
      hung.hdr
    have hnames : names (lay 0) = names A ++ x :: names B := by
      rw [hcut, names, List.map_append, List.map_append, List.append_assoc]
      rfl
    have hnames' : names (lay' 0) = names A ++ x :: (c.nextPageNo : Int) :: names B := by
      rw [hcut', names, List.map_append, List.map_append, List.append_assoc]
      rfl
    have hnodes : c₂.hdr.numPages = nodes h' lay' + 2 := by
      have h1 := hs.count
      have h2 : (c.setNode x m).hdr.numPages = c.hdr.numPages := rfl
      omega
    have hfirst : (names (lay' 0)).head? = some c₂.hdr.firstLeaf := by
      rw [hhdr, ← hs.first, hnames, hnames']
      cases names A <;> rfl
    rw [bind_assoc]
    by_cases hxl : x = c.hdr.lastLeaf
    · -- the last leaf was split
      rw [onlyIf_pos hxl]
      have hB : names B = [] := by
        have hlast := hs.last
        have hnd := hs.tree.layered.nodup 0 (Nat.zero_le _)
        rw [hnames, ← hxl, List.getLast?_append] at hlast
        rw [hnames, List.nodup_append, List.nodup_cons] at hnd
        cases hB : names B with
        | nil => rfl
        | cons b l =>
            rw [hB] at hlast hnd
            rw [List.getLast?_cons_cons] at hlast
            cases hgl : (b :: l).getLast? with
            | none => simp at hgl
            | some y =>
                rw [hgl, Option.some_or, Option.some.injEq] at hlast
                rw [hlast] at hgl
                exact absurd (List.mem_of_mem_getLast? hgl) hnd.2.1.1
      refine yields_modifyHdr.then_do (yields_unpinPage.then_do (yields_unpinPage.then_do
        (Yields.pure ⟨rfl, h', lay', ?_, hkeeps, ?_⟩)))
      · refine ⟨ht'.congr_hdr rfl rfl rfl, ⟨hs'.1, hs'.2⟩, ⟨hring.header, hring.ring⟩, hfirst,
          ?_, hnodes⟩
        rw [hnames', hB, List.getLast?_append]
        rfl
      · show c₂.hdr.btreeOrder = _
        rw [hhdr]
    · rw [onlyIf_neg hxl, pure_bind]
      refine yields_unpinPage.then_do (yields_unpinPage.then_do
        (Yields.pure ⟨rfl, h', lay', ⟨ht', hs', hring, hfirst, ?_, hnodes⟩, hkeeps, ?_⟩))
      · rw [hhdr, hnames']
        have hlast := hs.last
        rw [hnames, List.getLast?_append] at hlast
        rw [List.getLast?_append]
        cases hB : names B with
        | nil =>
            rw [hB, List.getLast?_singleton, Option.some_or, Option.some.injEq] at hlast
            exact absurd hlast hxl
        | cons b l =>
            rw [hB, List.getLast?_cons_cons] at hlast
            rw [List.getLast?_cons_cons, List.getLast?_cons_cons]
            exact hlast
      · rw [hhdr]
  · -- there is room: no other node is touched
    rw [onlyIf_neg hfull, pure_bind]
    refine yields_unpinPage.then_do (Yields.pure ⟨rfl, h, lay, ?_, Keeps.refl, rfl⟩)
    refine ⟨ht₁, hs₁.settle ?_, hr₁, hs.first, hs.last, hs.count⟩
    intro i hi hmem
    have hi0 := hs.tree.layered.apart i 0 hi (Nat.zero_le _) x hmem hx
    unfold SizeOk IxFileHdr.minSize IxFileHdr.maxSize
    unfold IxFileHdr.minSize IxFileHdr.maxSize at hsize
    rw [size_setNode, if_pos rfl, hi0]
    refine ⟨?_, fun hne => ?_, fun _ h1 => by omega⟩
    · show (m.numKey : Int) ≤ c.hdr.btreeOrder
      omega
    · have := hsize.2.1 hne
      show (c.hdr.btreeOrder + 1) / 2 ≤ (m.numKey : Int)
      omega

end IxIndexHandle

end Rucbase
