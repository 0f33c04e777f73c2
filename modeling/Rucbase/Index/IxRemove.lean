import Rucbase.Index.IxRebalance

/-!
# Removing from a leaf

`delete_entry` from `leaf->Remove` on. The round at the leaves also changes the ring of leaves
and the entries they make up; all rounds above it are the climb of `IxRebalance`.
-/

namespace Rucbase

open Lib

namespace IxCore

variable {κ : Type} [Inhabited κ]

/-- The leaves are listed as the header says. -/
structure Listed (c : IxCore κ) (h : Nat) (lay : Nat → List (κ × Int)) : Prop where
  ring : LeafRing c (names (lay 0))
  first : (names (lay 0)).head? = some c.hdr.firstLeaf
  last : (names (lay 0)).getLast? = some c.hdr.lastLeaf
  count : c.hdr.numPages = nodes h lay + 2

variable {c c' : IxCore κ} {h h' j : Nat} {lay lay' : Nat → List (κ × Int)} {x y a b w : Int}
  {P Q K₁ K₂ : List (κ × Int)} {ky ka kb : κ} {n na nb ny : IxNode κ}

theorem Listed.sound (hl : Listed c h lay) (ht : Tree c h lay) (hs : Sizes c h lay []) :
    Sound c h lay := ⟨ht, hs, hl.ring, hl.first, hl.last, hl.count⟩

/-- A tree whose leaf `x` has lost one entry. -/
structure Shrunk (c : IxCore κ) (h : Nat) (lay : Nat → List (κ × Int)) (x : Int) (n : IxNode κ) :
    Prop where
  tree : Tree c h lay
  sizes : Sizes c h lay [x]
  listed : Listed c h lay
  leaf : x ∈ names (lay 0)
  page : c.pages x = some n
  low : 0 < h → c.hdr.minSize ≤ n.numKey + 1
  room : (n.numKey : Int) ≤ c.hdr.btreeOrder
  pos : h = 0 → 1 ≤ n.numKey

theorem Sound.shrunk [LinearOrder κ] {k : κ} {v : Rid} (hs : Sound c h lay) (hx : x ∈ names (lay 0))
    (hn : c.pages x = some n) (hinc : Increasing n.entries) (hk : (k, v) ∈ n.entries)
    (hpos : h = 0 → 2 ≤ n.numKey) :
    (n.remove k).numKey + 1 = n.numKey ∧ Shrunk (c.setNode x (n.remove k)) h lay x (n.remove k) := by
  obtain ⟨L₁, L₂, hent⟩ := List.append_of_mem hk
  obtain ⟨_, hsize⟩ := IxNode.entries_remove hinc hent
  obtain ⟨hfl, hfp, hfn, hfv⟩ := IxNode.remove_fields (n := n) (k := k)
  have hok := hs.sizes.2 0 (Nat.zero_le _) x hx (by simp)
  rw [SizeOk, size_eq_numKey hn] at hok
  refine ⟨hsize, hs.tree.setLeaf hx hn hfl hfp, hs.sizes.setLeaf,
    ⟨hs.ring.setLeaf hn hfn hfv, hs.first, hs.last, hs.count⟩, hx, setNode_pages_self, ?_, ?_, ?_⟩
  · intro hlt
    have hmin := hok.2.1 (hs.tree.layered.ne_root hlt hx)
    show c.hdr.minSize ≤ _
    omega
  · show ((n.remove k).numKey : Int) ≤ c.hdr.btreeOrder
    omega
  · intro h0
    have := hpos h0
    omega

/-- A leaf within bounds ends it. -/
theorem Shrunk.settle (hx : Shrunk c h lay x n)
    (hok : x ≠ c.hdr.rootPage → c.hdr.minSize ≤ n.numKey) : Sizes c h lay [] := by
  refine hx.sizes.settle fun i hi hmem => ?_
  rw [hx.tree.layered.apart i 0 hi (Nat.zero_le _) x hmem hx.leaf, SizeOk, size_eq_numKey hx.page]
  exact ⟨hx.room, hok, fun _ h1 => by omega⟩

theorem Shrunk.links (hx : Shrunk c h lay x n) : (0 : Nat) = 0 → ∀ w ∈ names (lay 0),
    (c.pages (c.prv w)).isSome ∧ (c.pages (c.nxt w)).isSome := fun _ _ hw =>
  ⟨(hx.tree.ring_page hx.listed.ring (hx.listed.ring.ring.prev_mem hw)).1,
    (hx.tree.ring_page hx.listed.ring (hx.listed.ring.ring.next_mem hw)).1⟩

/-- A change off the ring. -/
theorem Listed.framed (hl : Listed c h lay) (hf : Framed c c')
    (hnames : names (lay' 0) = names (lay 0))
    (hcount : c'.hdr.numPages - nodes h' lay' = c.hdr.numPages - nodes h lay) :
    Listed c' h' lay' := by
  obtain ⟨_, hfirst, hlast⟩ := hf.hdr.same
  refine ⟨⟨hf.pages _ hl.ring.header, ?_⟩, ?_, ?_, ?_⟩
  · rw [hnames]
    exact hl.ring.ring.congr (fun w _ => hf.nxt w) (fun w _ => hf.prv w)
  · rw [hnames, hfirst, hl.first]
  · rw [hnames, hlast, hl.last]
  · have := hl.count
    omega

/-- The climb above the leaves, seen from the leaves. -/
theorem Settled.sound (hset : Settled c h lay 1 c') (hl : Listed c h lay) :
    ∃ h' lay', Sound c' h' lay' ∧ lay' 0 = lay 0 ∧ c'.blocks lay' = c.blocks lay := by
  obtain ⟨h', lay', ht', hs', hsame, hcount⟩ := hset.tree
  obtain ⟨_, hlay, hagree⟩ := hsame 0 (by omega)
  refine ⟨h', lay', (hl.framed hset.frame (congrArg names hlay) hcount).sound ht' hs', hlay, ?_⟩
  unfold blocks
  rw [hlay]
  refine List.map_congr_left (fun e he => ?_)
  rw [(hagree e.2 (List.mem_map_of_mem he)).cont]

/-! ## Merging leaves -/

section

variable (hna : c.pages a = some na) (hnb : c.pages b = some nb)
  (hleaf : nb.isLeaf = true) (rank : Nat)

include hna hnb hleaf

/-- The links after a leaf was merged into the one before it. -/
theorem links_merge : (c.merge a b y rank).nxt w = (if w = c.prv b then c.nxt b else c.nxt w)
    ∧ (c.merge a b y rank).prv w = (if w = c.nxt b then c.prv b else c.prv w) := by
  have hd : Framed c (c.setNode a (na.insertPairs na.numKey nb.keys nb.rids nb.numKey)) := by
    refine Framed.refl.setNode ?_ ?_
    · rw [nxt, node_of_some hna]
      rfl
    · rw [prv, node_of_some hna]
      rfl
  generalize hdd : c.setNode a (na.insertPairs na.numKey nb.keys nb.rids nb.numKey) = d at hd
  have hjoined : c.joined a b
      = (if b = c.hdr.lastLeaf then d.setLast a else d).unlinkLeaf b := by
    rw [joined, node_of_some hna, node_of_some hnb, adopts, hleaf, ← hdd]
    rfl
  have hnext : ∀ u, (if b = c.hdr.lastLeaf then d.setLast a else d).nxt u = c.nxt u := by
    intro u
    rw [← hd.nxt u]
    split <;> rfl
  have hprev : ∀ u, (if b = c.hdr.lastLeaf then d.setLast a else d).prv u = c.prv u := by
    intro u
    rw [← hd.prv u]
    split <;> rfl
  have hlast : Framed (c.joined a b)
      ((c.joined a b).setNode y (((c.joined a b).node y).erasePair rank)) := Framed.refl.setNode rfl rfl
  constructor
  · refine (hlast.nxt w).trans ?_
    rw [hjoined, nxt_unlinkLeaf, hnext, hnext, hprev]
  · refine (hlast.prv w).trans ?_
    rw [hjoined, prv_unlinkLeaf, hnext, hprev, hprev]

theorem isSome_merge (hw : (c.pages w).isSome) : ((c.merge a b y rank).pages w).isSome := by
  have hjoined : c.joined a b = (if b = c.hdr.lastLeaf
      then (c.setNode a (na.insertPairs na.numKey nb.keys nb.rids nb.numKey)).setLast a
      else c.setNode a (na.insertPairs na.numKey nb.keys nb.rids nb.numKey)).unlinkLeaf b := by
    rw [joined, node_of_some hna, node_of_some hnb, adopts, hleaf]
    rfl
  refine isSome_setNode ?_
  rw [hjoined]
  refine isSome_setNode (isSome_setNode ?_)
  split
  · exact isSome_setNode hw
  · exact isSome_setNode hw

end

section

variable (hnb : Neighbours c lay 0 x y a b P Q K₁ K₂ ky ka kb na nb) (ht : Tree c h lay)
  (hj : 0 < h) (hl : Listed c h lay)

include hnb ht hj hl

/-- The pages that merging two leaves reads the links of. -/
theorem Neighbours.links : nb.isLeaf = true →
    (c.pages nb.prevLeaf).isSome ∧ (c.pages nb.nextLeaf).isSome := by
  intro _
  obtain ⟨_, _, hb, _⟩ := ht.pair_site hj hnb.above hnb.kids
  have h1 := (ht.ring_page hl.ring (hl.ring.ring.prev_mem hb)).1
  have h2 := (ht.ring_page hl.ring (hl.ring.ring.next_mem hb)).1
  rw [nxt, node_of_some hnb.right] at h2
  rw [prv, node_of_some hnb.right] at h1
  exact ⟨h1, h2⟩

/-- **The ring after two leaves were merged.** -/
theorem Neighbours.listed_merge (hcount : (c.merge a b y (K₁.length + 1)).hdr.numPages
      - nodes h (c.relaid lay 0 P K₁ [(ka, a)] K₂ Q) = c.hdr.numPages - nodes h lay) :
    Listed (c.merge a b y (K₁.length + 1)) h (c.relaid lay 0 P K₁ [(ka, a)] K₂ Q) := by
  obtain ⟨_, ha, hb, hab, _, _⟩ := ht.pair_site hj hnb.above hnb.kids
  obtain ⟨_, hlb, _⟩ := ht.pair_pages hj hnb.above hnb.kids hnb.left hnb.right
  have hleaf : nb.isLeaf = true := by
    rw [hlb]
    rfl
  have hcut : lay 0 = (Lib.below c.kids P ++ K₁) ++ [(ka, a), (kb, b)]
      ++ (K₂ ++ Lib.below c.kids Q) :=
    ht.layered.layer_cut hj hnb.above hnb.kids
  have hnames : names (lay 0) = (names (Lib.below c.kids P ++ K₁) ++ [a])
      ++ b :: names (K₂ ++ Lib.below c.kids Q) := by
    rw [hcut]
    simp [names]
  have hnames' : names (c.relaid lay 0 P K₁ [(ka, a)] K₂ Q 0)
      = (names (Lib.below c.kids P ++ K₁) ++ [a]) ++ names (K₂ ++ Lib.below c.kids Q) := by
    rw [relaid, Function.update_self]
    simp [names]
  have hnd := ht.ring_nodup
  have hring := hl.ring.ring
  rw [hnames] at hnd hring
  have hhdr := (hdr_joined hnb.left hnb.right).1
  refine ⟨⟨isSome_merge hnb.left hnb.right hleaf _ hl.ring.header, ?_⟩, ?_, ?_, ?_⟩
  · -- the ring without `b`
    have hlinks := fun w => links_merge (y := y) (w := w) hnb.left hnb.right hleaf (K₁.length + 1)
    rw [hnames']
    refine hring.unlink hnd ?_ ?_ ?_ ?_
    · rw [(hlinks _).1, if_pos rfl]
    · rw [(hlinks _).2, if_pos rfl]
    · exact fun w hw => by rw [(hlinks w).1, if_neg hw]
    · exact fun w hw => by rw [(hlinks w).2, if_neg hw]
  · have hfirst : (c.merge a b y (K₁.length + 1)).hdr.firstLeaf = c.hdr.firstLeaf := by
      show (c.joined a b).hdr.firstLeaf = _
      rw [hhdr]
    have hold := hl.first
    rw [hnames] at hold
    have hhead : ∀ M, (names (Lib.below c.kids P ++ K₁) ++ [a] ++ M).head?
        = (names (Lib.below c.kids P ++ K₁) ++ [a]).head? :=
      fun M => List.head?_append_of_ne_nil _ (by simp)
    rw [hnames', hfirst, ← hold, hhead, hhead]
  · have hlast : (c.merge a b y (K₁.length + 1)).hdr.lastLeaf
        = if nb.isLeaf ∧ b = c.hdr.lastLeaf then a else c.hdr.lastLeaf := by
      show (c.joined a b).hdr.lastLeaf = _
      rw [hhdr]
    have hold := hl.last
    rw [hnames] at hold
    rw [hnames', hlast]
    generalize names (K₂ ++ Lib.below c.kids Q) = B at *
    rcases List.eq_nil_or_concat B with rfl | ⟨B, e, rfl⟩
    · -- the last leaf is gone
      rw [List.getLast?_append, List.getLast?_singleton, Option.some_or, Option.some.injEq] at hold
      rw [if_pos ⟨hleaf, hold⟩, List.append_nil, List.getLast?_append]
      rfl
    · rw [List.concat_eq_append] at hold hnd ⊢
      have hbe : b ≠ e := by
        rintro rfl
        simp [List.nodup_append] at hnd
      have hle : e = c.hdr.lastLeaf := by
        rw [← List.cons_append, ← List.append_assoc, List.getLast?_append,
          List.getLast?_singleton] at hold
        exact Option.some.inj hold
      rw [if_neg (fun heq => hbe (heq.2.trans hle.symm)), ← List.append_assoc,
        List.getLast?_append, List.getLast?_singleton, hle]
      rfl
  · have := hl.count
    omega

end

/-! ## The entries -/

section

variable (hnb : Neighbours c lay 0 x y a b P Q K₁ K₂ ky ka kb na nb) (ht : Tree c h lay) (hj : 0 < h)

include hnb ht hj

omit [Inhabited κ] in
/-- The blocks of two leaves next to each other. -/
theorem Neighbours.blocks_pair : ∃ A B : List (κ × List (κ × Rid)), A = (Lib.below c.kids P ++ K₁).map
      (fun e => (e.1, c.cont e.2)) ∧ B = (K₂ ++ Lib.below c.kids Q).map (fun e => (e.1, c.cont e.2))
    ∧ c.blocks lay = A ++ [(ka, na.entries), (kb, nb.entries)] ++ B := by
  obtain ⟨hla, hlb, _⟩ := ht.pair_pages hj hnb.above hnb.kids hnb.left hnb.right
  refine ⟨_, _, rfl, rfl, ?_⟩
  rw [blocks_cut ht hj hnb.above hnb.kids rfl]
  simp only [List.map_cons, List.map_nil]
  rw [cont_of_leaf (view_of_pages hnb.left) (by exact hla),
    cont_of_leaf (view_of_pages hnb.right) (by exact hlb)]
  rfl

omit [Inhabited κ] in
/-- **Borrowing between leaves keeps the entries.** -/
theorem Neighbours.keeps_shift [LinearOrder κ] {kb' : κ} {va vb : NodeView κ} {moved : List Int} {p : Int}
    (hr : Reshapes c c' h lay 0 y K₁ K₂ [(ka, a), (kb, b)] [(ka, a), (kb', b)] moved p)
    (hd : Dealt c' x a b na nb ka kb kb' va vb) :
    Keeps (c.blocks lay) (c'.blocks (c.relaid lay 0 P K₁ [(ka, a), (kb', b)] K₂ Q)) := by
  obtain ⟨A, B, hA, hB, hblocks⟩ := hnb.blocks_pair ht hj
  obtain ⟨va', hva', hla, _⟩ := (hr.nodes a (by simp)).1
  obtain ⟨vb', hvb', hlb, _⟩ := (hr.nodes b (by simp)).1
  obtain rfl : va = va' := Option.some.inj (hd.left.symm.trans hva')
  obtain rfl : vb = vb' := Option.some.inj (hd.right.symm.trans hvb')
  have hnew := hr.blocks_zero ht hj hnb.above hnb.kids rfl
  simp only [List.map_cons, List.map_nil] at hnew
  rw [cont_of_leaf hva' hla, cont_of_leaf hvb' hlb, ← hA, ← hB] at hnew
  rw [hblocks, hnew]
  exact hd.keeps A B

/-- **Merging leaves keeps the entries.** -/
theorem Neighbours.keeps_merge [LinearOrder κ] (hl : Listed c h lay) (h1 : 1 ≤ na.numKey) :
    Keeps (c.blocks lay) ((c.merge a b y (K₁.length + 1)).blocks
      (c.relaid lay 0 P K₁ [(ka, a)] K₂ Q)) := by
  obtain ⟨_, _, _, hab, hay, _⟩ := ht.pair_site hj hnb.above hnb.kids
  obtain ⟨hla, hlb, _⟩ := ht.pair_pages hj hnb.above hnb.kids hnb.left hnb.right
  obtain ⟨A, B, hA, hB, hblocks⟩ := hnb.blocks_pair ht hj
  have hlinks := hnb.links ht hj hl
  have hr := ht.reshapes_merged hj hnb.above hnb.kids hnb.left hnb.right h1 hlinks
  have hnew := hr.blocks_zero ht hj hnb.above hnb.kids rfl
  have hva := hnb.view_merge ht hj hlinks
  simp only [List.map_cons, List.map_nil] at hnew
  rw [cont_of_leaf hva (by exact hla), ← hA, ← hB] at hnew
  have hentries : (na.insertPairs na.numKey nb.keys nb.rids nb.numKey).view.entries
      = na.entries ++ nb.entries := entries_joined
  rw [hblocks, hnew, hentries]
  refine Keeps.join (fun hnil => ?_)
  have := congrArg List.length hnil
  rw [IxNode.length_entries] at this
  simp at this
  omega

end

end IxCore

namespace IxIndexHandle

open IxCore

variable {κ : Type} [Inhabited κ] {c : IxCore κ} {h fuel : Nat}
  {lay : Nat → List (κ × Int)} {x : Int} {n : IxNode κ} {k : κ}

/-- `AdjustRoot` on the only leaf, as long as it has entries. -/
theorem yields_adjustRoot_leaf {R : Bool → IxCore κ → Prop} (hx : Shrunk c h lay x n) (h0 : 0 = h)
    (hR : Sizes c h lay [] → R false c) : Yields (adjustRoot x) c R := by
  have hroot : x = c.hdr.rootPage := by
    have hmem := hx.leaf
    rw [h0] at hmem
    exact hx.tree.layered.eq_root hmem
  have hleaf := hx.tree.isLeaf hx.leaf hx.page
  have hpos := hx.pos h0.symm
  unfold adjustRoot
  refine Yields.get_bind (fun s hsat => ?_)
  simp only [hsat.node]
  rw [node_of_some hx.page, if_neg (fun hc => by rw [hleaf] at hc; exact absurd hc.1 (by simp)),
    if_neg (fun hc => by omega)]
  exact Yields.pure (hR (hx.settle (fun hne => absurd hroot hne)))

variable [LinearOrder κ]

/-- **`CoalesceOrRedistribute` at a leaf** that has lost one entry: the index is in order again,
with the same entries. -/
theorem yields_rebalanceLeaf (hx : Shrunk c h lay x n) (hfuel : h + 3 ≤ fuel) :
    Yields (coalesceOrRedistribute fuel x) c (fun _ c' => ∃ h' lay', Sound c' h' lay'
      ∧ Keeps (c.blocks lay) (c'.blocks lay') ∧ c'.hdr.btreeOrder = c.hdr.btreeOrder) := by
  obtain ⟨fuel, rfl⟩ : ∃ f, fuel = f + 1 := ⟨fuel - 1, by omega⟩
  refine yields_round hx.tree (Nat.zero_le _) hx.leaf hx.page hx.sizes hx.links hx.low (by omega)
    ?_ ?_ ?_ ?_
  · intro henough
    exact ⟨h, lay, hx.listed.sound hx.tree (hx.settle fun _ => henough), .refl, rfl⟩
  · intro h0 _
    exact yields_adjustRoot_leaf hx h0 (fun hs => ⟨h, lay, hx.listed.sound hx.tree hs, .refl, rfl⟩)
  · intro y a b P Q K₁ K₂ ky ka kb na nb hlt hone hnb hbig
    obtain ⟨kb', moved, p, va, vb, hr, hd⟩ := hnb.dealt_of_short hx.tree hx.sizes hlt hx.page hone hbig
    have hframe := framed_shift (c := c) (x := x) (a := a) (b := b) (y := y) (K₁.length + 1)
    have horder := hframe.hdr.same.1
    refine ⟨h, _, Listed.sound ?_ (hx.tree.reshape hlt hnb.above hnb.kids hr)
      (hnb.sizes_shift hx.tree hx.sizes hlt hx.page hone hr hd horder hbig), hnb.keeps_shift hx.tree hlt hr hd, horder⟩
    refine hx.listed.framed hframe ?_ ?_
    · rw [Function.update_self, hx.tree.layered.layer_eq hlt hnb.above, hnb.kids]
      simp [names]
    · have hcount := hx.tree.nodes_relaid hlt hnb.above hnb.kids [(ka, a), (kb', b)]
      simp only [relaid, List.length_cons, List.length_nil] at hcount
      rw [numPages_shift]
      omega
  · intro y a b P Q K₁ K₂ ky ka kb na nb hlt hone hnb hsmall
    obtain ⟨ny, hm⟩ := hnb.merged hx.tree hx.sizes hlt hx.page hone (hnb.links hx.tree hlt hx.listed) hsmall
    refine (yields_climb hm.tree (Nat.le_refl _) (by omega) hm.parent hm.page hm.sizes hm.low hm.pos
      hm.room (by omega)).mono (fun _ c' hset => ?_)
    obtain ⟨h', lay', hsound, _, hblocks⟩ := hset.sound (hnb.listed_merge hx.tree hlt hx.listed hm.count)
    refine ⟨h', lay', hsound, ?_, hset.frame.hdr.same.1.trans hm.order⟩
    rw [hblocks]
    exact hnb.keeps_merge hx.tree hlt hx.listed (hnb.left_pos hx.tree hx.sizes hlt hx.page hone)

/-- `leaf->Remove(k)`, when the leaf has `k`. -/
theorem yields_remove_then {R : Bool → IxCore κ → Prop} (hn : c.pages x = some n)
    (hsize : (n.remove k).numKey ≠ n.numKey)
    (hrest : Yields (coalesceOrRedistribute fuel x) (c.setNode x (n.remove k)) fun _ => R true) :
    Yields (removeFromLeaf fuel x k) c R := by
  unfold removeFromLeaf
  refine Yields.get_bind (fun s hsat => ?_)
  refine (yields_modifyNode hn).then_do (Yields.get_bind (fun t htat => ?_))
  rw [htat.node, hsat.node, node_of_some setNode_pages_self, node_of_some hn, if_neg hsize]
  exact hrest.bind (fun _ _ hR => Yields.pure hR)

/-- **`delete_entry` from the leaf on**: the index stays in order, with the blocks of the leaves
after `Remove`, perhaps dealt out anew. -/
theorem yields_removeFromLeaf {v : Rid} (hs : Sound c h lay) (hx : x ∈ names (lay 0))
    (hn : c.pages x = some n) (hinc : Increasing n.entries) (hk : (k, v) ∈ n.entries)
    (hpos : h = 0 → 2 ≤ n.numKey) (hfuel : h + 3 ≤ fuel) :
    Yields (removeFromLeaf fuel x k) c (fun a c' => a = true ∧ ∃ h' lay', Sound c' h' lay'
      ∧ Keeps ((c.setNode x (n.remove k)).blocks lay) (c'.blocks lay')
      ∧ c'.hdr.btreeOrder = c.hdr.btreeOrder) := by
  obtain ⟨hsize, hshrunk⟩ := hs.shrunk hx hn hinc hk hpos
  refine yields_remove_then hn (by omega) ((yields_rebalanceLeaf hshrunk hfuel).mono ?_)
  rintro _ c' ⟨h', lay', hsound, hkeeps, horder⟩
  exact ⟨rfl, h', lay', hsound, hkeeps, horder⟩

end IxIndexHandle

end Rucbase
