import Rucbase.Index.IxDelete

/-!
# The climb of a deletion

One round of `CoalesceOrRedistribute`, with the three things it can do: nothing, borrow, or
merge and call itself for the parent. From that, by induction on the layers above, that a tree
in which one node has one entry too few is a tree in order again afterwards.
-/

namespace Rucbase

open Lib

namespace IxCore

variable {κ : Type}

/-- `a` and `b` are next to each other below `y`, and `x` is one of them: `b`, or `a` if it is
the first child. -/
structure Neighbours (c : IxCore κ) (lay : Nat → List (κ × Int)) (j : Nat) (x y a b : Int)
    (P Q K₁ K₂ : List (κ × Int)) (ky ka kb : κ) (na nb : IxNode κ) : Prop where
  above : lay (j + 1) = P ++ (ky, y) :: Q
  kids : c.kids y = K₁ ++ [(ka, a), (kb, b)] ++ K₂
  left : c.pages a = some na
  right : c.pages b = some nb
  here : (x = a ∧ K₁ = []) ∨ x = b

/-- What borrowing does: `x` gets an entry from its neighbour. -/
def shift [Inhabited κ] (c : IxCore κ) (x a b y : Int) (rank : Nat) : IxCore κ :=
  if x = a then c.shiftLeft a b y rank else c.shiftRight a b y rank

/-- The root given up for its only child. -/
def collapse [Inhabited κ] (c : IxCore κ) : IxCore κ :=
  let n := c.node c.hdr.rootPage
  let u := (n.rids 0).pageNo
  let d := c.setNode c.hdr.rootPage (n.erasePair 0)
  ((d.setNode u ((d.node u).setParent ixNoPage)).setRoot u).addPages (-1)

variable {c : IxCore κ} {h j : Nat} {lay : Nat → List (κ × Int)} {x y a b : Int}
  {P Q K₁ K₂ : List (κ × Int)} {ky ka kb : κ} {n na nb ny : IxNode κ}

/-- The child at a slot. -/
theorem rids_of_kids (hleaf : ny.isLeaf = false) (hK : ny.view.kids = K₁ ++ (kb, b) :: K₂) :
    (ny.rids K₁.length).pageNo = b := by
  obtain ⟨L₁, e, L₂, hL, rfl, he, _⟩ := entries_of_kids hleaf hK
  obtain ⟨_, _, _, he'⟩ := IxNode.entries_at hL
  rw [he'] at he
  rw [List.length_map]
  exact congrArg Prod.snd he

/-- **A node below the root has a neighbour.** -/
theorem Tree.neighbours (ht : Tree c h lay) (hs : Sizes c h lay [x]) (hj : j < h)
    (hx : x ∈ names (lay j)) : ∃ y a b P Q K₁ K₂ ky ka kb na nb,
      Neighbours c lay j x y a b P Q K₁ K₂ ky ka kb na nb ∧ c.par x = y := by
  obtain ⟨P, ky, Q, L₁, kx, L₂, hy, hL⟩ := ht.layered.locate hj hx
  have hymem : c.par x ∈ names (lay (j + 1)) := by
    rw [hy]
    simp
  have hpage : ∀ u ∈ names (c.kids (c.par x)), ∃ m, c.pages u = some m := by
    intro u hu
    have := ht.isSome (by omega) (ht.layered.kid_mem hj hymem hu)
    exact Option.isSome_iff_exists.mp this
  have hyx : c.par x ≠ x := (ht.layered.ne_of_lt (Nat.lt_succ_self j) hj hx hymem).symm
  -- the parent has two children at least
  have hsize : 2 ≤ (c.kids (c.par x)).length := by
    obtain ⟨v, hv, hvl⟩ := ht.kind (j + 1) (by omega) _ hymem
    have hvl' : v.isLeaf = false := by
      rw [hvl]
      simp
    have hok := hs.2 (j + 1) (by omega) _ hymem (by simpa using hyx)
    have horder := hs.1
    unfold SizeOk IxFileHdr.minSize IxFileHdr.maxSize at hok
    rw [size_of_view hv] at hok
    rw [kids_of_view hv, NodeView.kids_of_inner hvl', List.length_map]
    by_cases hroot : c.par x = c.hdr.rootPage
    · exact hok.2.2 hroot (by omega)
    · have := hok.2.1 hroot
      omega
  rcases List.eq_nil_or_concat L₁ with rfl | ⟨M₁, e, rfl⟩
  · cases L₂ with
    | nil =>
        rw [hL] at hsize
        simp at hsize
    | cons f M₂ =>
        obtain ⟨nx, hnx⟩ := hpage x (by rw [hL]; simp)
        obtain ⟨nf, hnf⟩ := hpage f.2 (by rw [hL]; simp)
        exact ⟨c.par x, x, f.2, P, Q, [], M₂, ky, kx, f.1, nx, nf,
          ⟨hy, hL, hnx, hnf, .inl ⟨rfl, rfl⟩⟩, rfl⟩
  · rw [List.concat_eq_append] at hL
    obtain ⟨nx, hnx⟩ := hpage x (by rw [hL]; simp)
    obtain ⟨ne, hne⟩ := hpage e.2 (by rw [hL]; simp)
    refine ⟨c.par x, e.2, x, P, Q, M₁, L₂, ky, e.1, kx, ne, nx, ⟨hy, ?_, hne, hnx, .inr rfl⟩, rfl⟩
    rw [hL]
    simp

/-- An inner node has as many entries as children. -/
theorem size_eq_kids {v : NodeView κ} (hv : c.view x = some v) (hl : v.isLeaf = false) :
    c.size x = (c.kids x).length := by
  rw [size_of_view hv, kids_of_view hv, NodeView.kids_of_inner hl, List.length_map]

/-- A rewritten window leaves the nodes below as they were. -/
theorem Reshapes.agree_below {c' : IxCore κ} {W W' : List (κ × Int)} {moved : List Int} {p : Int}
    (ht : Tree c h lay) (hj : j < h) (hy : lay (j + 1) = P ++ (ky, y) :: Q)
    (hK : c.kids y = K₁ ++ W ++ K₂) (hr : Reshapes c c' h lay j y K₁ K₂ W W' moved p) {i : Nat}
    (hi : i < j) (hx : x ∈ names (lay i)) : Agree c c' x := by
  have hymem : y ∈ names (lay (j + 1)) := by
    rw [hy]
    simp
  refine hr.agree_other (by omega) hx ?_ (fun hW => ?_)
  · exact ht.layered.ne_of_lt (by omega) hj hx hymem
  · have hW' := (hr.rewrites ht hj hy hK).old (by omega) hx hW
    have hxj : x ∈ names (lay j) := by
      refine ht.layered.kid_mem hj hymem ?_
      rw [hK, Layered.mem_rewritten]
      exact .inl hW'
    exact ht.layered.ne_of_lt hi (by omega) hx hxj rfl

/-- The layers after a window among the children of a node was rewritten. -/
abbrev relaid (c : IxCore κ) (lay : Nat → List (κ × Int)) (j : Nat) (P K₁ W K₂ Q : List (κ × Int)) :
    Nat → List (κ × Int) :=
  Function.update lay j ((Lib.below c.kids P ++ K₁) ++ W ++ (K₂ ++ Lib.below c.kids Q))

/-- The number of nodes after a window was rewritten. -/
theorem Tree.nodes_relaid (ht : Tree c h lay) (hj : j < h) (hy : lay (j + 1) = P ++ (ky, y) :: Q)
    {W : List (κ × Int)} (hK : c.kids y = K₁ ++ W ++ K₂) (W' : List (κ × Int)) :
    nodes h (c.relaid lay j P K₁ W' K₂ Q) + W.length = nodes h lay + W'.length := by
  have hcut : lay j = (Lib.below c.kids P ++ K₁) ++ W ++ (K₂ ++ Lib.below c.kids Q) :=
    ht.layered.layer_cut hj hy hK
  have hcount := nodes_update lay (show j ≤ h by omega)
    ((Lib.below c.kids P ++ K₁) ++ W' ++ (K₂ ++ Lib.below c.kids Q))
  have hlen := congrArg List.length hcut
  simp only [List.length_append] at hlen hcount
  unfold relaid
  omega

/-! ## Borrowing -/

/-- What borrowing does to the two: the entries, read on, stay; the key of `b` in `y` is the
first of `b`; the first entry of `a` stays; and `x` has one entry more. -/
structure Dealt [LinearOrder κ] (c' : IxCore κ) (x a b : Int) (na nb : IxNode κ) (ka kb kb' : κ)
    (va vb : NodeView κ) : Prop where
  left : c'.view a = some va
  right : c'.view b = some vb
  keeps : ∀ A B : List (κ × List (κ × Rid)), Keeps (A ++ [(ka, na.entries), (kb, nb.entries)] ++ B)
    (A ++ [(ka, va.entries), (kb', vb.entries)] ++ B)
  firstLeft : va.entries.head? = na.entries.head?
  firstRight : vb.entries.head?.map Prod.fst = some kb'
  total : va.entries.length + vb.entries.length = na.numKey + nb.numKey
  more : (x = a ∧ va.entries.length = na.numKey + 1) ∨ (x = b ∧ vb.entries.length = nb.numKey + 1)

variable [Inhabited κ]

theorem Neighbours.dealt [LinearOrder κ] (hnb : Neighbours c lay j x y a b P Q K₁ K₂ ky ka kb na nb)
    (ht : Tree c h lay) (hj : j < h) (h1 : 1 ≤ na.numKey) (h2 : x = a → 2 ≤ nb.numKey)
    (h3 : x = b → 2 ≤ na.numKey) :
    ∃ kb' moved p va vb, Reshapes c (c.shift x a b y (K₁.length + 1)) h lay j y K₁ K₂
        [(ka, a), (kb, b)] [(ka, a), (kb', b)] moved p
      ∧ Dealt (c.shift x a b y (K₁.length + 1)) x a b na nb ka kb kb' va vb := by
  obtain ⟨hymem, ha, hb, hab, hay, hby⟩ := ht.pair_site hj hnb.above hnb.kids
  obtain ⟨hla, hlb, ny, hny, _⟩ := ht.pair_pages hj hnb.above hnb.kids hnb.left hnb.right
  -- the node is the left one and takes from the right, or the other way round
  rcases hnb.here with ⟨rfl, _⟩ | rfl
  · have h2' := h2 rfl
    obtain ⟨hva, hvb⟩ := ht.pair_shiftLeft hj hnb.above hnb.kids hnb.left hnb.right (by omega)
      (K₁.length + 1)
    have hb1 : nb.entries = _ := entries_first (by omega)
    have hb2 : (nb.erasePair 0).entries = _ := entries_first (by show 1 ≤ nb.numKey - 1; omega)
    have hba : nb.entries = (nb.keys 0, nb.rids 0) :: (nb.erasePair 0).entries := by
      rw [entries_erase_first (by omega), ← hb1]
    have hne : na.entries ≠ [] := by
      intro hnil
      have := congrArg List.length hnil
      rw [IxNode.length_entries] at this
      simp at this
      omega
    have hr := ht.reshapes_shiftLeft hj hnb.above hnb.kids hnb.left hnb.right h1 h2'
    rw [show c.shift x x b y (K₁.length + 1) = c.shiftLeft x b y (K₁.length + 1) from if_pos rfl]
    refine ⟨_, _, _, { na.view with entries := na.entries ++ [(nb.keys 0, nb.rids 0)] },
      (nb.erasePair 0).view, hr, ?_⟩
    · refine ⟨hva, hvb, fun A B => ?_, ?_, ?_, ?_, .inl ⟨rfl, ?_⟩⟩
      · show Keeps _ (A ++ [(ka, na.entries ++ [(nb.keys 0, nb.rids 0)]),
          ((nb.erasePair 0).keys 0, (nb.erasePair 0).entries)] ++ B)
        rw [hba, hb2]
        exact Keeps.shiftLeft hne
      · exact List.head?_append_of_ne_nil _ hne
      · show (nb.erasePair 0).entries.head?.map Prod.fst = _
        rw [hb2]
        rfl
      · show (na.entries ++ _).length + (nb.erasePair 0).entries.length = _
        rw [List.length_append, IxNode.length_entries, IxNode.length_entries]
        show na.numKey + 1 + (nb.numKey - 1) = _
        omega
      · show (na.entries ++ _).length = _
        rw [List.length_append, IxNode.length_entries]
        rfl
  · have h3' := h3 rfl
    obtain ⟨hva, hvb⟩ := ht.pair_shiftRight hj hnb.above hnb.kids hnb.left hnb.right (by omega)
      (K₁.length + 1)
    have hlast := entries_last (by omega)
    have hinit := entries_erase_last (by omega)
    have hr := ht.reshapes_shiftRight hj hnb.above hnb.kids hnb.left hnb.right h3'
    rw [show c.shift x a x y (K₁.length + 1) = c.shiftRight a x y (K₁.length + 1) from
      if_neg (Ne.symm hab)]
    refine ⟨_, _, _, (na.erasePair (na.numKey - 1)).view, { nb.view with
      entries := (na.keys (na.numKey - 1), na.rids (na.numKey - 1)) :: nb.entries }, hr, ?_⟩
    · refine ⟨hva, hvb, fun A B => ?_, ?_, rfl, ?_, .inr ⟨rfl, ?_⟩⟩
      · show Keeps _ (A ++ [(ka, (na.erasePair (na.numKey - 1)).entries),
          (na.keys (na.numKey - 1), (na.keys (na.numKey - 1), na.rids (na.numKey - 1))
            :: nb.entries)] ++ B)
        rw [hinit]
        nth_rewrite 1 [hlast]
        exact Keeps.shiftRight
      · show (na.erasePair (na.numKey - 1)).entries.head? = _
        rw [hinit]
        exact List.head?_take.trans (if_neg (by omega))
      · show (na.erasePair (na.numKey - 1)).entries.length + (nb.entries.length + 1) = _
        rw [IxNode.length_entries, IxNode.length_entries]
        show na.numKey - 1 + _ = _
        omega
      · show nb.entries.length + 1 = _
        rw [IxNode.length_entries]

/-! ## What stays -/

/-- What a round above the leaves leaves alone: leaf links, page numbers, most of the header. -/
structure Framed (c c' : IxCore κ) : Prop where
  hdr : c.hdr.Alike c'.hdr
  next : c'.nextPageNo = c.nextPageNo
  nxt : ∀ w, c'.nxt w = c.nxt w
  prv : ∀ w, c'.prv w = c.prv w
  pages : ∀ w, (c.pages w).isSome → (c'.pages w).isSome

theorem Framed.refl : Framed c c := ⟨rfl, rfl, fun _ => rfl, fun _ => rfl, fun _ h => h⟩

theorem Framed.trans {c' c'' : IxCore κ} (h : Framed c c') (h' : Framed c' c'') : Framed c c'' :=
  ⟨h.hdr.trans h'.hdr, h'.next.trans h.next, fun w => (h'.nxt w).trans (h.nxt w),
    fun w => (h'.prv w).trans (h.prv w), fun w hw => h'.pages w (h.pages w hw)⟩

/-- Overwriting a node that keeps its links. -/
theorem Framed.setNode {d : IxCore κ} {m : IxNode κ} (hf : Framed c d) (hnext : m.nextLeaf = c.nxt x)
    (hprev : m.prevLeaf = c.prv x) : Framed c (d.setNode x m) := by
  refine ⟨hf.hdr, hf.next, fun w => ?_, fun w => ?_, fun w hw => isSome_setNode (hf.pages w hw)⟩
  · rw [nxt_setNode]
    split
    · next h => rw [h, hnext]
    · exact hf.nxt w
  · rw [prv_setNode]
    split
    · next h => rw [h, hprev]
    · exact hf.prv w

theorem Framed.adopts {d : IxCore κ} {leaf : Bool} {p : Int} {es : List (κ × Rid)}
    (hf : Framed c d) : Framed c (d.adopts leaf p es) := by
  obtain ⟨hh, hn⟩ := hdr_adopts (c := d) (p := p)
  refine ⟨?_, hn.trans hf.next, fun w => nxt_adopts.trans (hf.nxt w),
    fun w => prv_adopts.trans (hf.prv w), fun w hw => isSome_adopts (hf.pages w hw)⟩
  rw [hh]
  exact hf.hdr

theorem framed_shift (rank : Nat) : Framed c (c.shift x a b y rank) := by
  unfold shift
  split
  · exact .adopts (.setNode (.setNode (.setNode .refl (by rfl) (by rfl)) (by rfl) (by rfl))
      (by rfl) (by rfl))
  · exact .adopts (.setNode (.setNode (.setNode .refl (by rfl) (by rfl)) (by rfl) (by rfl))
      (by rfl) (by rfl))

/-- Above the leaves, merging leaves the links alone too. -/
theorem framed_merge (hna : c.pages a = some na) (hnb : c.pages b = some nb)
    (hleaf : nb.isLeaf = false) (rank : Nat) : Framed c (c.merge a b y rank) := by
  have hjoined : c.joined a b = (c.setNode a
      (na.insertPairs na.numKey nb.keys nb.rids nb.numKey)).adopts false a nb.entries := by
    rw [joined, node_of_some hna, node_of_some hnb, hleaf]
    rfl
  have h1 : Framed c (c.joined a b) := by
    rw [hjoined]
    refine Framed.adopts (Framed.refl.setNode ?_ ?_)
    · rw [nxt, node_of_some hna]
      rfl
    · rw [prv, node_of_some hna]
      rfl
  have h2 : Framed (c.joined a b)
      ((c.joined a b).setNode y (((c.joined a b).node y).erasePair rank)) := Framed.refl.setNode rfl rfl
  have h3 := h1.trans h2
  exact ⟨h3.hdr.trans rfl, h3.next, h3.nxt, h3.prv, h3.pages⟩

/-! ## Sizes -/

section

variable (hnb : Neighbours c lay j x y a b P Q K₁ K₂ ky ka kb na nb) (ht : Tree c h lay)
  (hs : Sizes c h lay [x]) (hj : j < h) (hn : c.pages x = some n)
  (hone : (n.numKey : Int) + 1 = c.hdr.minSize)

include hnb ht hs hj

omit [Inhabited κ] in
/-- Before the round, the parent and the neighbour are within bounds. -/
theorem Neighbours.bounds : c.SizeOk (j + 1) y ∧ (∀ w m, w = a ∨ w = b → c.pages w = some m →
    w ≠ c.hdr.rootPage ∧ (w ≠ x → (m.numKey : Int) ≤ c.hdr.btreeOrder ∧ c.hdr.minSize ≤ m.numKey)) := by
  obtain ⟨hymem, ha, hb, hab, hay, hby⟩ := ht.pair_site hj hnb.above hnb.kids
  have hxy : y ≠ x := by
    rcases hnb.here with ⟨rfl, _⟩ | rfl
    · exact Ne.symm hay
    · exact Ne.symm hby
  refine ⟨hs.2 (j + 1) (by omega) y hymem (by simpa using hxy), fun w m hw hm => ?_⟩
  have hwmem : w ∈ names (lay j) := by
    rcases hw with rfl | rfl
    · exact ha
    · exact hb
  have hroot : w ≠ c.hdr.rootPage := ht.layered.ne_root hj hwmem
  refine ⟨hroot, fun hwx => ?_⟩
  have hok := hs.2 j (by omega) w hwmem (by simpa using hwx)
  rw [SizeOk, size_eq_numKey hm] at hok
  exact ⟨hok.1, hok.2.1 hroot⟩

include hn hone

omit [Inhabited κ] in
/-- After borrowing, all nodes are within bounds. -/
theorem Neighbours.sizes_shift [LinearOrder κ] {c' : IxCore κ} {kb' : κ} {va vb : NodeView κ}
    {moved : List Int}
    {p : Int} (hr : Reshapes c c' h lay j y K₁ K₂ [(ka, a), (kb, b)] [(ka, a), (kb', b)] moved p)
    (hd : Dealt c' x a b na nb ka kb kb' va vb) (horder : c'.hdr.btreeOrder = c.hdr.btreeOrder)
    (hbig : c.hdr.minSize * 2 ≤ (na.numKey + nb.numKey : Int)) :
    Sizes c' h (c.relaid lay j P K₁ [(ka, a), (kb', b)] K₂ Q) [] := by
  obtain ⟨_, _, _, hab, _, _⟩ := ht.pair_site hj hnb.above hnb.kids
  obtain ⟨hyok, hpair⟩ := hnb.bounds ht hs hj
  obtain ⟨hra, hla⟩ := hpair a na (.inl rfl) hnb.left
  obtain ⟨hrb, hlb⟩ := hpair b nb (.inr rfl) hnb.right
  have h3 := hs.1
  have htotal := hd.total
  -- `x` has just enough, its neighbour still has
  have hsizes : (va.entries.length : Int) ≤ c.hdr.btreeOrder ∧ c.hdr.minSize ≤ va.entries.length
      ∧ (vb.entries.length : Int) ≤ c.hdr.btreeOrder ∧ c.hdr.minSize ≤ vb.entries.length := by
    unfold IxFileHdr.minSize IxFileHdr.maxSize at *
    rcases hd.more with ⟨rfl, hmore⟩ | ⟨rfl, hmore⟩
    · obtain rfl : n = na := Option.some.inj (hn.symm.trans hnb.left)
      have := hlb (Ne.symm hab)
      omega
    · obtain rfl : n = nb := Option.some.inj (hn.symm.trans hnb.right)
      have := hla hab
      omega
  have hmin : c'.hdr.minSize = c.hdr.minSize := by
    unfold IxFileHdr.minSize IxFileHdr.maxSize
    rw [horder]
  refine hs.reshape ht hj hnb.above hnb.kids hr horder (fun w hw _ => ?_) (fun _ => ?_) ?_
  · unfold SizeOk
    rw [hr.root, horder, hmin]
    have hwab : w = a ∨ w = b := by simpa using hw
    rcases hwab with rfl | rfl
    · rw [size_of_view hd.left]
      exact ⟨hsizes.1, fun _ => hsizes.2.1, fun heq => absurd heq hra⟩
    · rw [size_of_view hd.right]
      exact ⟨hsizes.2.2.1, fun _ => hsizes.2.2.2, fun heq => absurd heq hrb⟩
  · obtain ⟨v, hv, hl, hk, _⟩ := hr.parent
    obtain ⟨v₀, hv₀, hl₀⟩ := ht.kind (j + 1) (by omega) y (by rw [hnb.above]; simp)
    have hsize : c'.size y = c.size y := by
      rw [size_eq_kids hv hl, size_eq_kids hv₀ (by rw [hl₀]; simp), kids_of_view hv, hk, hnb.kids]
      simp
    unfold SizeOk at hyok ⊢
    rw [hsize, hr.root, horder, hmin]
    exact hyok
  · intro w hw
    rw [List.mem_singleton.mp hw]
    refine .inl ?_
    rcases hnb.here with ⟨rfl, _⟩ | rfl <;> simp

omit hs hn hone in
/-- The left node has the entries of both then. -/
theorem Neighbours.view_merge
    (hlinks : nb.isLeaf = true → (c.pages nb.prevLeaf).isSome ∧ (c.pages nb.nextLeaf).isSome) :
    (c.merge a b y (K₁.length + 1)).view a
      = some (na.insertPairs na.numKey nb.keys nb.rids nb.numKey).view := by
  obtain ⟨_, _, _, hab, hay, _⟩ := ht.pair_site hj hnb.above hnb.kids
  have hkid : a ∉ names nb.view.kids := by
    intro hu
    rw [← kids_of_view (view_of_pages hnb.right)] at hu
    exact (ht.pair_kid hj hnb.above hnb.kids (.inr rfl) hu).2.1 rfl
  show (IxCore.setNode _ _ _).view a = _
  rw [view_setNode, if_neg hay, view_joined hnb.left hnb.right hab hlinks hkid, if_pos rfl]

/-- After merging, all nodes but the parent are within bounds. -/
theorem Neighbours.sizes_merge
    (hlinks : nb.isLeaf = true → (c.pages nb.prevLeaf).isSome ∧ (c.pages nb.nextLeaf).isSome)
    (hsmall : (na.numKey + nb.numKey : Int) < c.hdr.minSize * 2) :
    Sizes (c.merge a b y (K₁.length + 1)) h (c.relaid lay j P K₁ [(ka, a)] K₂ Q) [y]
      ∧ (c.merge a b y (K₁.length + 1)).size y + 1 = c.size y := by
  obtain ⟨hymem, ha, hb, hab, hay, hby⟩ := ht.pair_site hj hnb.above hnb.kids
  obtain ⟨hyok, hpair⟩ := hnb.bounds ht hs hj
  obtain ⟨hra, hla⟩ := hpair a na (.inl rfl) hnb.left
  obtain ⟨hrb, hlb⟩ := hpair b nb (.inr rfl) hnb.right
  have h3 := hs.1
  -- both were near the minimum, so together they are within bounds
  have hsizes : (na.numKey + nb.numKey : Int) ≤ c.hdr.btreeOrder
      ∧ c.hdr.minSize ≤ (na.numKey + nb.numKey : Int) ∧ 1 ≤ na.numKey := by
    unfold IxFileHdr.minSize IxFileHdr.maxSize at *
    rcases hnb.here with ⟨rfl, _⟩ | rfl
    · obtain rfl : n = na := Option.some.inj (hn.symm.trans hnb.left)
      have := hlb (Ne.symm hab)
      omega
    · obtain rfl : n = nb := Option.some.inj (hn.symm.trans hnb.right)
      have := hla hab
      omega
  have hr := ht.reshapes_merged hj hnb.above hnb.kids hnb.left hnb.right hsizes.2.2 hlinks
  have hva := hnb.view_merge ht hj hlinks
  have horder : (c.merge a b y (K₁.length + 1)).hdr.btreeOrder = c.hdr.btreeOrder := by
    show (c.joined a b).hdr.btreeOrder = _
    rw [(hdr_joined hnb.left hnb.right).1]
  have hmin : (c.merge a b y (K₁.length + 1)).hdr.minSize = c.hdr.minSize := by
    unfold IxFileHdr.minSize IxFileHdr.maxSize
    rw [horder]
  generalize c.merge a b y (K₁.length + 1) = c' at *
  constructor
  · refine hs.reshape ht hj hnb.above hnb.kids hr horder (fun w hw _ => ?_)
      (fun hy' => absurd (List.mem_singleton.mpr rfl) hy') ?_
    · obtain rfl : w = a := by simpa using hw
      unfold SizeOk
      have hsize : c'.size w = na.numKey + nb.numKey := by
        rw [size_of_view hva]
        exact IxNode.length_entries
      rw [hr.root, horder, hmin, hsize]
      push_cast
      exact ⟨hsizes.1, fun _ => hsizes.2.1, fun heq => absurd heq hra⟩
    · intro w hw
      rw [List.mem_singleton.mp hw]
      rcases hnb.here with ⟨rfl, _⟩ | rfl
      · exact .inl (by simp)
      · -- `b` is no longer in the tree
        refine .inr (.inr (.inr (fun i hi hmem => ?_)))
        have hcut : lay j = (Lib.below c.kids P ++ K₁) ++ [(ka, a), (kb, x)]
            ++ (K₂ ++ Lib.below c.kids Q) :=
          ht.layered.layer_cut hj hnb.above hnb.kids
        by_cases hij : i = j
        · rw [hij, Function.update_self, Layered.mem_rewritten] at hmem
          obtain ⟨hA, hB⟩ := (ht.layered.cut_disjoint (by omega) hcut).1 x (by simp)
          rcases hmem with hmem | hmem | hmem
          · exact hab (List.mem_singleton.mp hmem).symm
          · exact hA hmem
          · exact hB hmem
        · rw [Function.update_of_ne hij] at hmem
          exact hij (ht.layered.apart i j hi (by omega) x hmem hb)
  · obtain ⟨v, hv, hl, hk, _⟩ := hr.parent
    obtain ⟨v₀, hv₀, hl₀⟩ := ht.kind (j + 1) (by omega) y hymem
    rw [size_eq_kids hv hl, size_eq_kids hv₀ (by rw [hl₀]; simp), kids_of_view hv, hk, hnb.kids]
    simp only [List.length_append, List.length_cons, List.length_nil]
    omega

end

/-! ## The root -/

section

variable (ht : Tree c (h + 1) lay) (hn : c.pages c.hdr.rootPage = some n) (h1 : n.numKey = 1)

include hn

theorem framed_collapse : Framed c c.collapse := by
  have h1 : Framed c (c.setNode c.hdr.rootPage (n.erasePair 0)) := by
    refine Framed.refl.setNode ?_ ?_
    · rw [nxt, node_of_some hn]
      rfl
    · rw [prv, node_of_some hn]
      rfl
  have hcol : c.collapse = ((((c.setNode c.hdr.rootPage (n.erasePair 0)).setNode (n.rids 0).pageNo
      (((c.setNode c.hdr.rootPage (n.erasePair 0)).node (n.rids 0).pageNo).setParent
        ixNoPage)).setRoot (n.rids 0).pageNo).addPages (-1)) := by
    unfold collapse
    rw [node_of_some hn]
  have h2 := h1.setNode (x := (n.rids 0).pageNo)
    (m := ((c.setNode c.hdr.rootPage (n.erasePair 0)).node (n.rids 0).pageNo).setParent ixNoPage)
    (h1.nxt _) (h1.prv _)
  rw [hcol]
  exact ⟨h2.hdr.trans rfl, h2.next, h2.nxt, h2.prv, h2.pages⟩

include ht h1

omit [Inhabited κ] in
/-- The only child of the root. -/
theorem Tree.only_child : n.isLeaf = false ∧ c.kids c.hdr.rootPage = [(n.keys 0, (n.rids 0).pageNo)]
    ∧ (n.rids 0).pageNo ∈ names (lay h) ∧ (n.rids 0).pageNo ≠ c.hdr.rootPage := by
  obtain ⟨n', hn', hl⟩ := ht.view_some (Nat.le_refl _) ht.layered.root_mem
  obtain rfl : n = n' := Option.some.inj (hn.symm.trans hn')
  have hl' : n.isLeaf = false := by
    rw [hl]
    simp
  have hkids : c.kids c.hdr.rootPage = [(n.keys 0, (n.rids 0).pageNo)] := by
    rw [kids_of_view (view_of_pages hn), NodeView.kids_of_inner hl']
    show n.entries.map _ = _
    rw [IxNode.entries, h1]
    rfl
  have hmem : (n.rids 0).pageNo ∈ names (lay h) :=
    ht.layered.kid_mem (by omega) ht.layered.root_mem (by rw [hkids]; simp)
  exact ⟨hl', hkids, hmem, ht.layered.ne_root (Nat.lt_succ_self h) hmem⟩

theorem Tree.view_collapse {w : Int} (hw : w ≠ c.hdr.rootPage) : c.collapse.view w
    = if w = (n.rids 0).pageNo then (c.view w).map (·.under ixNoPage) else c.view w := by
  obtain ⟨_, _, hmem, hne⟩ := ht.only_child hn h1
  obtain ⟨m, hm, _⟩ := ht.view_some (by omega) hmem
  have hcol : c.collapse = ((((c.setNode c.hdr.rootPage (n.erasePair 0)).setNode (n.rids 0).pageNo
      (m.setParent ixNoPage)).setRoot (n.rids 0).pageNo).addPages (-1)) := by
    unfold collapse
    rw [node_of_some hn]
    dsimp only
    rw [node_setNode, if_neg hne, node_of_some hm]
  rw [hcol]
  show (IxCore.setNode _ _ _).view w = _
  rw [view_setNode, view_setNode, if_neg hw]
  split
  · next heq =>
      rw [heq, view_of_pages hm]
      rfl
  · rfl

theorem Tree.agree_collapse {i : Nat} (hi : i ≤ h) (hx : x ∈ names (lay i)) :
    Agree c c.collapse x := by
  have hview := ht.view_collapse hn h1 (ht.layered.ne_root (Nat.lt_succ_of_le hi) hx)
  split at hview
  · exact .of_under hview
  · exact .of_view hview

theorem Tree.collapse : Tree c.collapse h lay := by
  obtain ⟨hl, hkids, hmem, hne⟩ := ht.only_child hn h1
  have hroot : c.collapse.hdr.rootPage = (n.rids 0).pageNo := by
    show ((c.node c.hdr.rootPage).rids 0).pageNo = _
    rw [node_of_some hn]
  -- the old root is the only node that goes
  have hrootne : ∀ i, i ≤ h → ∀ w ∈ names (lay i), w ≠ c.hdr.rootPage :=
    fun i hi w hw => ht.layered.ne_root (Nat.lt_succ_of_le hi) hw
  have hview := fun w hw => ht.view_collapse hn h1 (w := w) hw
  have hagree := fun i (hi : i ≤ h) w hw => ht.agree_collapse hn h1 (x := w) hi hw
  constructor
  case layered =>
    rw [hroot]
    refine ht.layered.collapse hkids (fun i hi w hw => (hagree i hi w hw).kids) ?_
    intro i hi w hw
    unfold par
    rw [hview w (hrootne i (by omega) w hw), if_neg]
    exact ht.layered.ne_of_lt hi (by omega) hw hmem
  case kind =>
    intro i hi w hw
    obtain ⟨v, hv, hleaf⟩ := ht.kind i (by omega) w hw
    rw [hview w (hrootne i hi w hw), hv]
    split
    · exact ⟨_, rfl, hleaf⟩
    · exact ⟨_, rfl, hleaf⟩
  case range =>
    intro i hi w hw
    rw [(framed_collapse hn).next]
    exact ht.range i (by omega) w hw
  case rootPar =>
    obtain ⟨v, hv, _⟩ := ht.kind h (by omega) _ hmem
    rw [hroot]
    unfold par
    rw [hview _ hne, if_pos rfl, hv]
    rfl
  case labels =>
    intro i h1' hi e he
    rw [(hagree i (by omega) e.2 (List.mem_map_of_mem he)).kids]
    exact ht.labels i h1' (by omega) e he

/-- A child of the root has enough entries to be the root. -/
theorem Tree.sizes_collapse (hs : Sizes c (h + 1) lay [c.hdr.rootPage]) :
    Sizes c.collapse h lay [] := by
  have horder : c.collapse.hdr.btreeOrder = c.hdr.btreeOrder := rfl
  refine ⟨hs.1, fun i hi w hw _ => ?_⟩
  have hwr : w ≠ c.hdr.rootPage := ht.layered.ne_root (Nat.lt_succ_of_le hi) hw
  have hok := hs.2 i (by omega) w hw (by simpa using hwr)
  have hmin := hok.2.1 hwr
  have h3 := hs.1
  unfold SizeOk
  rw [(ht.agree_collapse hn h1 hi hw).size]
  refine ⟨hok.1, fun _ => hmin, fun _ _ => ?_⟩
  unfold IxFileHdr.minSize IxFileHdr.maxSize at hmin
  omega

end

/-! ## The climb -/

/-- What a deletion has done from layer `j` on: a tree again, all nodes within bounds, and
nothing changed below. -/
structure Settled (c : IxCore κ) (h : Nat) (lay : Nat → List (κ × Int)) (j : Nat)
    (c' : IxCore κ) : Prop where
  tree : ∃ h' lay', Tree c' h' lay' ∧ Sizes c' h' lay' []
    ∧ (∀ i, i < j → i ≤ h' ∧ lay' i = lay i ∧ ∀ w ∈ names (lay i), Agree c c' w)
    ∧ c'.hdr.numPages - nodes h' lay' = c.hdr.numPages - nodes h lay
  frame : Framed c c'

theorem Settled.stop (ht : Tree c h lay) (hs : Sizes c h lay []) (hj : j ≤ h) :
    Settled c h lay j c :=
  ⟨⟨h, lay, ht, hs, fun i hi => ⟨by omega, rfl, fun _ _ => .of_view rfl⟩, rfl⟩, .refl⟩

theorem numPages_shift (rank : Nat) :
    (c.shift x a b y rank).hdr.numPages = c.hdr.numPages := by
  unfold shift
  split
  · exact congrArg IxFileHdr.numPages hdr_adopts.1
  · exact congrArg IxFileHdr.numPages hdr_adopts.1

/-- `Neighbours.dealt` when `x` is short of one entry and the two have enough. -/
theorem Neighbours.dealt_of_short [LinearOrder κ] (hnb : Neighbours c lay j x y a b P Q K₁ K₂ ky ka kb na nb)
    (ht : Tree c h lay) (hs : Sizes c h lay [x]) (hj : j < h) (hn : c.pages x = some n)
    (hone : (n.numKey : Int) + 1 = c.hdr.minSize)
    (hbig : c.hdr.minSize * 2 ≤ (na.numKey + nb.numKey : Int)) :
    ∃ kb' moved p va vb, Reshapes c (c.shift x a b y (K₁.length + 1)) h lay j y K₁ K₂
        [(ka, a), (kb, b)] [(ka, a), (kb', b)] moved p
      ∧ Dealt (c.shift x a b y (K₁.length + 1)) x a b na nb ka kb kb' va vb := by
  obtain ⟨_, _, _, hab, _, _⟩ := ht.pair_site hj hnb.above hnb.kids
  have h3 := hs.1
  have hcounts : 1 ≤ na.numKey ∧ (x = a → 2 ≤ nb.numKey) ∧ (x = b → 2 ≤ na.numKey) := by
    unfold IxFileHdr.minSize IxFileHdr.maxSize at *
    rcases hnb.here with ⟨rfl, _⟩ | rfl
    · obtain rfl : n = na := Option.some.inj (hn.symm.trans hnb.left)
      exact ⟨by omega, fun _ => by omega, fun heq => absurd heq hab⟩
    · obtain rfl : n = nb := Option.some.inj (hn.symm.trans hnb.right)
      exact ⟨by omega, fun heq => absurd heq.symm hab, fun _ => by omega⟩
  exact hnb.dealt ht hj hcounts.1 hcounts.2.1 hcounts.2.2

/-- Borrowing ends the climb. -/
theorem Neighbours.settled_shift [LinearOrder κ] (hnb : Neighbours c lay j x y a b P Q K₁ K₂ ky ka kb na nb)
    (ht : Tree c h lay) (hs : Sizes c h lay [x]) (hj : j < h) (hn : c.pages x = some n)
    (hone : (n.numKey : Int) + 1 = c.hdr.minSize)
    (hbig : c.hdr.minSize * 2 ≤ (na.numKey + nb.numKey : Int)) :
    Settled c h lay j (c.shift x a b y (K₁.length + 1)) := by
  have hframe := framed_shift (c := c) (x := x) (a := a) (b := b) (y := y) (K₁.length + 1)
  obtain ⟨kb', moved, p, va, vb, hr, hd⟩ := hnb.dealt_of_short ht hs hj hn hone hbig
  refine ⟨⟨h, _, ht.reshape hj hnb.above hnb.kids hr,
    hnb.sizes_shift ht hs hj hn hone hr hd hframe.hdr.same.1 hbig,
    fun i hi => ⟨by omega, ?_, ?_⟩, ?_⟩, hframe⟩
  · exact Function.update_of_ne (by omega) ..
  · exact fun w hw => hr.agree_below ht hj hnb.above hnb.kids hi hw
  · have hcount := ht.nodes_relaid hj hnb.above hnb.kids [(ka, a), (kb', b)]
    simp only [relaid, List.length_cons, List.length_nil] at hcount
    rw [numPages_shift]
    omega

/-- The tree after a merge, with the parent as the next node to look at. -/
structure Merged (c : IxCore κ) (h : Nat) (lay : Nat → List (κ × Int)) (j : Nat) (y : Int)
    (c₁ : IxCore κ) (lay₁ : Nat → List (κ × Int)) (ny : IxNode κ) : Prop where
  tree : Tree c₁ h lay₁
  sizes : Sizes c₁ h lay₁ [y]
  parent : y ∈ names (lay₁ (j + 1))
  page : c₁.pages y = some ny
  size : ny.numKey + 1 = c.size y
  low : j + 1 < h → c₁.hdr.minSize ≤ ny.numKey + 1
  pos : 1 ≤ ny.numKey
  room : (ny.numKey : Int) ≤ c₁.hdr.btreeOrder
  order : c₁.hdr.btreeOrder = c.hdr.btreeOrder
  below : ∀ i, i < j → lay₁ i = lay i ∧ ∀ w ∈ names (lay i), Agree c c₁ w
  count : c₁.hdr.numPages - nodes h lay₁ = c.hdr.numPages - nodes h lay

section

variable (hnb : Neighbours c lay j x y a b P Q K₁ K₂ ky ka kb na nb) (ht : Tree c h lay)
  (hs : Sizes c h lay [x]) (hj : j < h) (hn : c.pages x = some n)
  (hone : (n.numKey : Int) + 1 = c.hdr.minSize)

include hnb ht hs hj hn hone

omit [Inhabited κ] in
theorem Neighbours.left_pos : 1 ≤ na.numKey := by
  obtain ⟨_, _, _, hab, _, _⟩ := ht.pair_site hj hnb.above hnb.kids
  obtain ⟨_, hpair⟩ := hnb.bounds ht hs hj
  have h3 := hs.1
  unfold IxFileHdr.minSize IxFileHdr.maxSize at *
  rcases hnb.here with ⟨rfl, _⟩ | rfl
  · obtain rfl : n = na := Option.some.inj (hn.symm.trans hnb.left)
    omega
  · have := (hpair a na (.inl rfl) hnb.left).2 hab
    omega

omit [Inhabited κ] in
theorem Neighbours.right_pos : 1 ≤ nb.numKey := by
  obtain ⟨_, _, _, hab, _, _⟩ := ht.pair_site hj hnb.above hnb.kids
  obtain ⟨_, hpair⟩ := hnb.bounds ht hs hj
  have h3 := hs.1
  unfold IxFileHdr.minSize IxFileHdr.maxSize at *
  rcases hnb.here with ⟨rfl, _⟩ | rfl
  · have := (hpair b nb (.inr rfl) hnb.right).2 (Ne.symm hab)
    omega
  · obtain rfl : n = nb := Option.some.inj (hn.symm.trans hnb.right)
    omega

/-- **A merge leaves the parent with one entry less.** -/
theorem Neighbours.merged
    (hlinks : nb.isLeaf = true → (c.pages nb.prevLeaf).isSome ∧ (c.pages nb.nextLeaf).isSome)
    (hsmall : (na.numKey + nb.numKey : Int) < c.hdr.minSize * 2) :
    ∃ ny, Merged c h lay j y (c.merge a b y (K₁.length + 1)) (c.relaid lay j P K₁ [(ka, a)] K₂ Q)
      ny := by
  obtain ⟨hymem, _, _, hab, _, _⟩ := ht.pair_site hj hnb.above hnb.kids
  obtain ⟨hyok, _⟩ := hnb.bounds ht hs hj
  obtain ⟨hs₁, hsize⟩ := hnb.sizes_merge ht hs hj hn hone hlinks hsmall
  have hr := ht.reshapes_merged hj hnb.above hnb.kids hnb.left hnb.right
    (hnb.left_pos ht hs hj hn hone) hlinks
  have ht₁ := ht.reshape hj hnb.above hnb.kids hr
  have hhdr := (hdr_joined hnb.left hnb.right).1
  have hpages : (c.merge a b y (K₁.length + 1)).hdr.numPages = c.hdr.numPages - 1 := by
    show (c.joined a b).hdr.numPages + -1 = _
    rw [hhdr]
    rfl
  have horder : (c.merge a b y (K₁.length + 1)).hdr.btreeOrder = c.hdr.btreeOrder := by
    show (c.joined a b).hdr.btreeOrder = _
    rw [hhdr]
  have hy₁ : y ∈ names (c.relaid lay j P K₁ [(ka, a)] K₂ Q (j + 1)) := by
    rw [relaid, Function.update_of_ne (by omega)]
    exact hymem
  obtain ⟨ny, hny, _⟩ := ht₁.view_some (by omega) hy₁
  rw [size_eq_numKey hny] at hsize
  have hcount := ht.nodes_relaid hj hnb.above hnb.kids [(ka, a)]
  simp only [List.length_cons, List.length_nil] at hcount
  have h3 := hs.1
  unfold SizeOk at hyok
  refine ⟨ny, ht₁, hs₁, hy₁, hny, hsize, ?_, ?_, ?_, horder, fun i hi => ⟨?_, ?_⟩, ?_⟩
  · -- a parent below the root had enough before
    intro hlt
    have := hyok.2.1 (ht.layered.ne_root hlt hymem)
    unfold IxFileHdr.minSize IxFileHdr.maxSize at *
    rw [horder]
    omega
  · by_cases hyroot : y = c.hdr.rootPage
    · have := hyok.2.2 hyroot (by omega)
      omega
    · have := hyok.2.1 hyroot
      unfold IxFileHdr.minSize IxFileHdr.maxSize at this
      omega
  · rw [horder]
    omega
  · exact Function.update_of_ne (by omega) ..
  · exact fun w hw => hr.agree_below ht hj hnb.above hnb.kids hi hw
  · rw [hpages]
    omega

end

/-- The climb after a merge at layer `j`. -/
theorem Merged.settled {c' c₁ : IxCore κ} {lay₁ : Nat → List (κ × Int)} {ny : IxNode κ}
    (hm : Merged c h lay j y c₁ lay₁ ny) (hset : Settled c₁ h lay₁ (j + 1) c')
    (hframe : Framed c c₁) : Settled c h lay j c' := by
  obtain ⟨h', lay', ht', hs', hsame, hcount⟩ := hset.tree
  refine ⟨⟨h', lay', ht', hs', fun i hi => ?_, hcount.trans hm.count⟩, hframe.trans hset.frame⟩
  obtain ⟨hi', hl, ha⟩ := hsame i (by omega)
  obtain ⟨hlay, hagree⟩ := hm.below i hi
  rw [hlay] at hl ha
  exact ⟨hi', hl, fun w hw => (hagree w hw).trans (ha w hw)⟩

end IxCore

namespace IxIndexHandle

open IxCore

variable {κ : Type} [Inhabited κ] {c : IxCore κ} {h j fuel : Nat}
  {lay : Nat → List (κ × Int)} {x : Int} {n : IxNode κ} {R : Bool → IxCore κ → Prop}

/-- **A round of `CoalesceOrRedistribute`.** -/
theorem yields_round [LinearOrder κ] (ht : Tree c h lay) (hj : j ≤ h) (hx : x ∈ names (lay j))
    (hn : c.pages x = some n) (hs : Sizes c h lay [x])
    (hlinks : j = 0 → ∀ w ∈ names (lay 0),
      (c.pages (c.prv w)).isSome ∧ (c.pages (c.nxt w)).isSome)
    (hlow : j < h → c.hdr.minSize ≤ n.numKey + 1) (hfuel : 2 ≤ fuel)
    (hstop : c.hdr.minSize ≤ n.numKey → R false c)
    (hroot : j = h → n.numKey < c.hdr.minSize → Yields (adjustRoot x) c R)
    (hshift : ∀ y a b P Q K₁ K₂ ky ka kb na nb, j < h → (n.numKey : Int) + 1 = c.hdr.minSize →
      Neighbours c lay j x y a b P Q K₁ K₂ ky ka kb na nb →
      c.hdr.minSize * 2 ≤ (na.numKey + nb.numKey : Int) →
      R false (c.shift x a b y (K₁.length + 1)))
    (hmerge : ∀ y a b P Q K₁ K₂ ky ka kb na nb, j < h → (n.numKey : Int) + 1 = c.hdr.minSize →
      Neighbours c lay j x y a b P Q K₁ K₂ ky ka kb na nb →
      (na.numKey + nb.numKey : Int) < c.hdr.minSize * 2 →
      Yields (coalesceOrRedistribute fuel y) (c.merge a b y (K₁.length + 1)) R) :
    Yields (coalesceOrRedistribute (fuel + 1) x) c R := by
  have horder := hs.1
  unfold coalesceOrRedistribute
  refine Yields.get_bind (fun s hsat => ?_)
  rw [hsat.fileHdr]
  simp only [hsat.node]
  rw [node_of_some hn]
  by_cases henough : (n.numKey : Int) ≥ c.hdr.minSize
  · rw [if_pos henough]
    exact yields_unpinPage.then_do (Yields.pure (hstop henough))
  rw [if_neg henough]
  have hpar : c.par x = n.parent := par_of_view (view_of_pages hn)
  rcases Nat.lt_or_ge j h with hlt | hge
  · rw [← hpar, if_neg (fun hno => by have := (ht.par_eq_noPage hj hx).mp hno; omega)]
    have hunder : (n.numKey : Int) + 1 = c.hdr.minSize := by
      have := hlow hlt
      omega
    obtain ⟨y, a, b, P, Q, K₁, K₂, ky, ka, kb, na, nb, hnb, hy⟩ := ht.neighbours hs hlt hx
    rw [hy]
    obtain ⟨hymem, ha, hb, hab, hay, hby⟩ := ht.pair_site hlt hnb.above hnb.kids
    obtain ⟨hla, hlb, ny, hny, hyl, hyk, _⟩ := ht.pair_pages hlt hnb.above hnb.kids hnb.left hnb.right
    obtain ⟨hslota, hslotb, _⟩ := pair_slots ht hlt hnb.above hnb.kids hnb.left hnb.right hny
    have hyk' : ny.view.kids = K₁ ++ (ka, a) :: (kb, b) :: K₂ := by
      rw [hyk]
      simp
    have hrida : (ny.rids K₁.length).pageNo = a := rids_of_kids hyl hyk'
    have hridb : (ny.rids (K₁.length + 1)).pageNo = b := by
      have := rids_of_kids hyl hyk
      rwa [show (K₁ ++ [(ka, a)]).length = K₁.length + 1 by simp] at this
    have hlk : nb.isLeaf = true → (c.pages nb.prevLeaf).isSome ∧ (c.pages nb.nextLeaf).isSome := by
      intro hl
      have h0 : j = 0 := by
        rw [hl] at hlb
        simpa using hlb.symm
      have := hlinks h0 b (h0 ▸ hb)
      rwa [nxt, prv, node_of_some hnb.right] at this
    -- the sizes of the two: one is short of one entry
    have hbound : ∀ w m, w ∈ names (lay j) → w ≠ x → c.pages w = some m →
        c.hdr.minSize ≤ m.numKey := by
      intro w m hw hwx hm
      have hok := hs.2 j hj w hw (by simpa using hwx)
      rw [SizeOk, size_eq_numKey hm] at hok
      exact hok.2.1 (ht.layered.ne_root hlt hw)
    have hmin : 2 ≤ c.hdr.minSize := by
      unfold IxFileHdr.minSize IxFileHdr.maxSize
      omega
    refine (yields_fetchNode hny).then_at ?_
    rcases hnb.here with ⟨rfl, hK₁⟩ | rfl
    · -- the first child: the neighbour is to the right
      obtain rfl : n = na := Option.some.inj (hn.symm.trans hnb.left)
      refine (yields_findChild hny hslota).then_at ?_
      rw [node_of_some hny, if_neg (by rw [hK₁]; simp), hridb]
      refine (yields_fetchNode hnb.right).then_at ?_
      rw [node_of_some hnb.right]
      have hbig := hbound b nb hb (Ne.symm hab) hnb.right
      by_cases hredist : (n.numKey : Int) + nb.numKey ≥ c.hdr.minSize * 2
      · rw [if_pos hredist]
        have hres := hshift y x b P Q K₁ K₂ ky ka kb n nb hlt hunder hnb hredist
        rw [shift, if_pos rfl] at hres
        have hred := yields_redistribute_left ht hlt hnb.above hnb.kids hnb.left
          hnb.right (by omega) hfuel
        rw [show K₁.length = 0 by rw [hK₁]; rfl] at hred hres ⊢
        exact hred.then_do (yields_unpinPage.then_do
          (yields_unpinPage.then_do (yields_unpinPage.then_do (Yields.pure hres))))
      · rw [if_neg hredist]
        refine yields_coalesce ht hlt hnb.above hnb.kids hnb.left hnb.right ?_ ?_ hlk
          (hmerge y x b P Q K₁ K₂ ky ka kb n nb hlt hunder hnb (by omega))
        · rw [hK₁]
          rfl
        · rw [hK₁]
          rfl
    · -- the neighbour is to the left
      obtain rfl : n = nb := Option.some.inj (hn.symm.trans hnb.right)
      refine (yields_findChild hny hslotb).then_at ?_
      rw [node_of_some hny, if_pos (by omega), Nat.add_sub_cancel, hrida]
      refine (yields_fetchNode hnb.left).then_at ?_
      rw [node_of_some hnb.left]
      have hbig := hbound a na ha hab hnb.left
      by_cases hredist : (n.numKey : Int) + na.numKey ≥ c.hdr.minSize * 2
      · rw [if_pos hredist]
        have hres := hshift y a x P Q K₁ K₂ ky ka kb na n hlt hunder hnb (by omega)
        rw [shift, if_neg (Ne.symm hab)] at hres
        refine (yields_redistribute_right ht hlt hnb.above hnb.kids hnb.left hnb.right (by omega)
          hfuel).then_do (yields_unpinPage.then_do (yields_unpinPage.then_do
          (yields_unpinPage.then_do (Yields.pure hres))))
      · rw [if_neg hredist]
        refine yields_coalesce ht hlt hnb.above hnb.kids hnb.left hnb.right ?_ ?_ hlk
          (hmerge y a x P Q K₁ K₂ ky ka kb na n hlt hunder hnb (by omega))
        · rw [if_neg (by omega)]
        · rw [if_neg (by omega)]
  · -- the root
    obtain rfl : j = h := by omega
    obtain rfl : x = c.hdr.rootPage := ht.layered.eq_root hx
    rw [← hpar, if_pos ht.rootPar]
    refine (hroot rfl (by omega)).bind (fun a c' hr => ?_)
    refine yields_unpinPage.then_do (Yields.pure hr)

/-- `AdjustRoot` above the leaves: a root with one child is given up for it. -/
theorem yields_adjustRoot_cases (ht : Tree c h lay) (h1 : 1 ≤ h)
    (hn : c.pages c.hdr.rootPage = some n) : Yields (adjustRoot c.hdr.rootPage) c (fun _ c' =>
      (n.numKey = 1 ∧ c' = c.collapse) ∨ (n.numKey ≠ 1 ∧ c' = c)) := by
  obtain ⟨l, rfl⟩ : ∃ l, h = l + 1 := ⟨h - 1, by omega⟩
  obtain ⟨n', hn', hl⟩ := ht.view_some (Nat.le_refl _) ht.layered.root_mem
  obtain rfl : n = n' := Option.some.inj (hn.symm.trans hn')
  have hl' : n.isLeaf = false := by
    rw [hl]
    simp
  unfold adjustRoot
  refine Yields.get_bind (fun s hsat => ?_)
  simp only [hsat.node]
  rw [node_of_some hn]
  by_cases hone : n.numKey = 1
  · -- the only child becomes the root
    rw [if_pos ⟨hl', hone⟩]
    obtain ⟨_, _, hmem, hne⟩ := ht.only_child hn hone
    obtain ⟨m, hm, _⟩ := ht.view_some (by omega) hmem
    have hm' : (c.setNode c.hdr.rootPage (n.erasePair 0)).pages (n.rids 0).pageNo = some m :=
      (setNode_pages_of_ne hne).trans hm
    have hcol : { (c.setNode c.hdr.rootPage (n.erasePair 0)).setNode (n.rids 0).pageNo
        (m.setParent ixNoPage) with
        hdr := { c.hdr with rootPage := (n.rids 0).pageNo, numPages := c.hdr.numPages - 1 } }
        = c.collapse := by
      unfold IxCore.collapse
      rw [node_of_some hn]
      dsimp only
      rw [node_of_some hm']
      rfl
    exact (yields_modifyNode hn).then_do ((yields_fetchNode hm').then_at
      ((yields_modifyNode hm').then_do (yields_unpinPage.then_do (yields_modifyHdr.then_do
      (yields_modifyHdr.then_do (Yields.pure (.inl ⟨hone, hcol⟩)))))))
  · rw [if_neg (fun h => hone h.2), if_neg (fun h => by rw [hl'] at h; exact absurd h.1 (by simp))]
    exact Yields.pure (.inr ⟨hone, rfl⟩)

/-- **`AdjustRoot` above the leaves.** -/
theorem yields_adjustRoot (ht : Tree c h lay) (h1 : 1 ≤ h) (hn : c.pages c.hdr.rootPage = some n)
    (hs : Sizes c h lay [c.hdr.rootPage]) (hpos : 1 ≤ n.numKey)
    (hlow : n.numKey < c.hdr.minSize) :
    Yields (adjustRoot c.hdr.rootPage) c (fun _ c' => Settled c h lay h c') := by
  have h3 := hs.1
  refine (yields_adjustRoot_cases ht h1 hn).mono ?_
  obtain ⟨l, rfl⟩ : ∃ l, h = l + 1 := ⟨h - 1, by omega⟩
  rintro _ c' (⟨hone, rfl⟩ | ⟨hone, rfl⟩)
  · refine ⟨⟨l, lay, ht.collapse hn hone, ht.sizes_collapse hn hone hs, fun i hi =>
      ⟨by omega, rfl, fun w hw => ht.agree_collapse hn hone (by omega) hw⟩, ?_⟩,
      framed_collapse hn⟩
    have hcount := nodes_succ lay l
    obtain ⟨k, htop⟩ := ht.layered.top_eq
    rw [htop] at hcount
    have hpages : c.collapse.hdr.numPages = c.hdr.numPages - 1 := rfl
    rw [hpages, hcount]
    simp only [List.length_cons, List.length_nil]
    omega
  · refine Settled.stop ht (hs.settle fun i hi hmem => ?_) (Nat.le_refl _)
    unfold SizeOk
    rw [size_eq_numKey hn]
    unfold IxFileHdr.minSize IxFileHdr.maxSize at hlow
    exact ⟨by omega, fun h => absurd rfl h, fun _ _ => by omega⟩

variable [LinearOrder κ]

/-- **The climb of `CoalesceOrRedistribute`**, above the leaves. -/
theorem yields_climb {fuel : Nat} {c : IxCore κ} {h j : Nat} {lay : Nat → List (κ × Int)} {x : Int}
    {n : IxNode κ} (ht : Tree c h lay) (h1 : 1 ≤ j) (hj : j ≤ h) (hx : x ∈ names (lay j))
    (hn : c.pages x = some n) (hs : Sizes c h lay [x]) (hlow : j < h → c.hdr.minSize ≤ n.numKey + 1)
    (hpos : 1 ≤ n.numKey) (hroom : (n.numKey : Int) ≤ c.hdr.btreeOrder) (hfuel : h + 3 ≤ fuel + j) :
    Yields (coalesceOrRedistribute fuel x) c (fun _ c' => Settled c h lay j c') := by
  induction fuel generalizing c j lay x n with
  | zero => omega
  | succ fuel ih =>
      have h3 := hs.1
      refine yields_round ht hj hx hn hs (fun h0 => by omega) hlow (by omega) ?_ ?_ ?_ ?_
      · -- enough entries
        intro henough
        refine Settled.stop ht (hs.settle fun i hi hmem => ?_) hj
        unfold SizeOk
        rw [size_eq_numKey hn]
        refine ⟨hroom, fun _ => henough, fun _ _ => ?_⟩
        unfold IxFileHdr.minSize IxFileHdr.maxSize at henough
        omega
      · rintro rfl hfew
        obtain rfl := ht.layered.eq_root hx
        exact yields_adjustRoot ht h1 hn hs hpos hfew
      · intro y a b P Q K₁ K₂ ky ka kb na nb hlt hone hnb hbig
        exact hnb.settled_shift ht hs hlt hn hone hbig
      · intro y a b P Q K₁ K₂ ky ka kb na nb hlt hone hnb hsmall
        obtain ⟨hymem, ha, hb, hab, hay, hby⟩ := ht.pair_site hlt hnb.above hnb.kids
        obtain ⟨hla, hlb, _⟩ := ht.pair_pages hlt hnb.above hnb.kids hnb.left hnb.right
        have hlb' : nb.isLeaf = false := by
          rw [hlb]
          simp
          omega
        have hlinks : nb.isLeaf = true →
            (c.pages nb.prevLeaf).isSome ∧ (c.pages nb.nextLeaf).isSome := by
          intro hl
          rw [hlb'] at hl
          exact absurd hl (by simp)
        -- two nodes are one, and the parent may have too few: one layer up
        obtain ⟨ny, hm⟩ := hnb.merged ht hs hlt hn hone hlinks hsmall
        refine (ih hm.tree (by omega) (by omega) hm.parent hm.page hm.sizes hm.low hm.pos hm.room
          (by omega)).mono (fun _ c' hset => ?_)
        exact hm.settled hset (framed_merge hnb.left hnb.right hlb' _)

end IxIndexHandle

end Rucbase
