import Rucbase.Index.IxPairs
import Rucbase.Index.IxSound

/-!
# Rebalancing keeps the tree

`CoalesceOrRedistribute` with all that hangs on it. A node with one entry too few gets one from
a neighbour under the same parent, or the two are merged and the parent has one entry less. The
key a parent holds for a node is its first key, so the entry that moves between inner nodes
takes the right key along; this is why `labels` is part of `Tree`.
-/

namespace Rucbase

open Lib

namespace IxCore

variable {κ : Type}

/-- The children that entries of an inner node name, made children of `p`. -/
def adopts (c : IxCore κ) (leaf : Bool) (p : Int) (es : List (κ × Rid)) : IxCore κ :=
  if leaf then c else c.adopt p (es.map (·.2.pageNo))

/-- The first entry of `b` put behind those of `a`; `b` is at slot `rank` of `y`. -/
def shiftLeft [Inhabited κ] (c : IxCore κ) (a b y : Int) (rank : Nat) : IxCore κ :=
  let na := c.node a
  let nb := c.node b
  (((c.setNode a (na.insertPair na.numKey (nb.keys 0) (nb.rids 0))).setNode b
    (nb.erasePair 0)).setNode y ((c.node y).setKey rank ((nb.erasePair 0).keys 0))).adopts
    na.isLeaf a [(nb.keys 0, nb.rids 0)]

/-- The last entry of `a` put before those of `b`. -/
def shiftRight [Inhabited κ] (c : IxCore κ) (a b y : Int) (rank : Nat) : IxCore κ :=
  let na := c.node a
  let nb := c.node b
  let k := na.keys (na.numKey - 1)
  let v := na.rids (na.numKey - 1)
  (((c.setNode b (nb.insertPair 0 k v)).setNode a (na.erasePair (na.numKey - 1))).setNode y
    ((c.node y).setKey rank k)).adopts nb.isLeaf b [(k, v)]

/-- All entries of `b` put behind those of `a`, before `b` leaves the tree. -/
def joined [Inhabited κ] (c : IxCore κ) (a b : Int) : IxCore κ :=
  let na := c.node a
  let nb := c.node b
  let d := (c.setNode a (na.insertPairs na.numKey nb.keys nb.rids nb.numKey)).adopts nb.isLeaf a
    nb.entries
  if nb.isLeaf then (if b = c.hdr.lastLeaf then d.setLast a else d).unlinkLeaf b else d

/-- `a` and `b` merged into `a`. -/
def merge [Inhabited κ] (c : IxCore κ) (a b y : Int) (rank : Nat) : IxCore κ :=
  ((c.joined a b).setNode y (((c.joined a b).node y).erasePair rank)).addPages (-1)

variable {c : IxCore κ} {h j : Nat} {lay : Nat → List (κ × Int)} {y a b w : Int}
  {P Q K₁ K₂ : List (κ × Int)} {ky ka kb key : κ} {na nb ny : IxNode κ} {e : κ × Rid}

/-! ## The parent's entries -/

/-- The entries behind a list of children. -/
theorem entries_of_kids (hleaf : ny.isLeaf = false) (hK : ny.view.kids = K₁ ++ (kb, b) :: K₂) :
    ∃ L₁ e L₂, ny.entries = L₁ ++ e :: L₂ ∧ L₁.map (fun e => (e.1, e.2.pageNo)) = K₁
      ∧ (e.1, e.2.pageNo) = (kb, b) ∧ L₂.map (fun e => (e.1, e.2.pageNo)) = K₂ := by
  rw [NodeView.kids_of_inner hleaf] at hK
  obtain ⟨L₁, L, hL, hL₁, hL'⟩ := List.map_eq_append_iff.mp hK
  obtain ⟨e, L₂, rfl, he, hL₂⟩ := List.map_eq_cons_iff.mp hL'
  exact ⟨L₁, e, L₂, hL, hL₁, he, hL₂⟩

theorem kids_setKey (key : κ) (hleaf : ny.isLeaf = false) (hK : ny.view.kids = K₁ ++ (kb, b) :: K₂) :
    (ny.setKey K₁.length key).view.kids = K₁ ++ (key, b) :: K₂ := by
  obtain ⟨L₁, e, L₂, hL, rfl, he, rfl⟩ := entries_of_kids hleaf hK
  have hent : (ny.setKey L₁.length key).view.entries = L₁ ++ (key, e.2) :: L₂ :=
    IxNode.entries_setKey_at hL
  rw [List.length_map, NodeView.kids_of_inner (v := (ny.setKey L₁.length key).view) hleaf, hent,
    List.map_append, List.map_cons]
  rw [Prod.mk.injEq] at he
  rw [he.2]

theorem kids_erasePair (hleaf : ny.isLeaf = false) (hK : ny.view.kids = K₁ ++ (kb, b) :: K₂) :
    (ny.erasePair K₁.length).view.kids = K₁ ++ K₂ := by
  obtain ⟨L₁, e, L₂, hL, rfl, he, rfl⟩ := entries_of_kids hleaf hK
  have hent : (ny.erasePair L₁.length).view.entries = L₁ ++ L₂ := IxNode.entries_erasePair_at hL
  rw [List.length_map, NodeView.kids_of_inner (v := (ny.erasePair L₁.length).view) hleaf, hent,
    List.map_append]

/-! ## Adopting -/

theorem view_adopts {leaf : Bool} {p : Int} {es : List (κ × Rid)} : (c.adopts leaf p es).view w
    = if w ∈ names (NodeView.kidsOf leaf es) then (c.view w).map (·.under p) else c.view w := by
  unfold adopts
  cases leaf with
  | true => rw [if_pos rfl, NodeView.kidsOf, if_pos rfl, if_neg (by simp)]
  | false =>
      have hl : es.map (·.2.pageNo) = names (NodeView.kidsOf false es) := by
        rw [NodeView.kidsOf, if_neg (by simp), names, List.map_map]
        rfl
      rw [if_neg (by simp), view_adopt, hl]

theorem hdr_adopts {leaf : Bool} {p : Int} {es : List (κ × Rid)} :
    (c.adopts leaf p es).hdr = c.hdr ∧ (c.adopts leaf p es).nextPageNo = c.nextPageNo := by
  unfold adopts
  split <;> exact ⟨rfl, rfl⟩

theorem nxt_adopts [Inhabited κ] {leaf : Bool} {p : Int} {es : List (κ × Rid)} :
    (c.adopts leaf p es).nxt w = c.nxt w := by
  unfold adopts
  split
  · rfl
  · exact nxt_adopt

theorem prv_adopts [Inhabited κ] {leaf : Bool} {p : Int} {es : List (κ × Rid)} :
    (c.adopts leaf p es).prv w = c.prv w := by
  unfold adopts
  split
  · rfl
  · exact prv_adopt

theorem isSome_adopts {leaf : Bool} {p : Int} {es : List (κ × Rid)} (hw : (c.pages w).isSome) :
    ((c.adopts leaf p es).pages w).isSome := by
  unfold adopts
  split
  · exact hw
  · exact isSome_adopt hw

/-! ## Merging, as a change of views -/

/-- The entries of both. -/
theorem entries_joined : (na.insertPairs na.numKey nb.keys nb.rids nb.numKey).entries
    = na.entries ++ nb.entries := by
  have htake : na.entries.take na.numKey = na.entries :=
    List.take_of_length_le (by rw [IxNode.length_entries])
  have hdrop : na.entries.drop na.numKey = [] :=
    List.drop_of_length_le (by rw [IxNode.length_entries])
  rw [IxNode.entries_insertPairs (Nat.le_refl _), IxNode.pairs_entries, htake, hdrop,
    List.append_nil]

section

variable (hna : c.pages a = some na) (hnb : c.pages b = some nb) (hab : a ≠ b)
  (hlinks : nb.isLeaf = true → (c.pages nb.prevLeaf).isSome ∧ (c.pages nb.nextLeaf).isSome)

include hna hnb

theorem hdr_joined [Inhabited κ] : (c.joined a b).hdr
      = { c.hdr with lastLeaf := if nb.isLeaf ∧ b = c.hdr.lastLeaf then a else c.hdr.lastLeaf }
    ∧ (c.joined a b).nextPageNo = c.nextPageNo := by
  unfold joined
  rw [node_of_some hna, node_of_some hnb]
  dsimp only
  obtain ⟨hh, hn⟩ := hdr_adopts
    (c := c.setNode a (na.insertPairs na.numKey nb.keys nb.rids nb.numKey))
    (p := a)
  generalize (c.setNode a (na.insertPairs na.numKey nb.keys nb.rids nb.numKey)).adopts
      nb.isLeaf a nb.entries = d at *
  have hh' : d.hdr = c.hdr := hh
  by_cases hl : nb.isLeaf = true
  · rw [if_pos hl]
    by_cases hlast : b = c.hdr.lastLeaf
    · rw [if_pos hlast, if_pos ⟨hl, hlast⟩]
      refine ⟨?_, hn⟩
      show { d.hdr with lastLeaf := a } = _
      rw [hh']
    · rw [if_neg hlast, if_neg (fun h => hlast h.2)]
      exact ⟨hh', hn⟩
  · rw [if_neg hl, if_neg (fun h => hl h.1)]
    exact ⟨hh', hn⟩

include hab hlinks

theorem view_joined [Inhabited κ] (ha : a ∉ names nb.view.kids) : (c.joined a b).view w
    = if w = a then some (na.insertPairs na.numKey nb.keys nb.rids nb.numKey).view
      else if w ∈ names nb.view.kids then (c.view w).map (·.under a) else c.view w := by
  have hd : ((c.setNode a (na.insertPairs na.numKey nb.keys nb.rids nb.numKey)).adopts nb.isLeaf a
      nb.entries).view w
      = if w = a then some (na.insertPairs na.numKey nb.keys nb.rids nb.numKey).view
        else if w ∈ names nb.view.kids then (c.view w).map (·.under a) else c.view w := by
    rw [view_adopts, view_setNode]
    by_cases hw : w = a
    · have hn : w ∉ names (NodeView.kidsOf nb.isLeaf nb.entries) := fun hmem => ha (hw ▸ hmem)
      rw [if_neg hn, if_pos hw, if_pos hw]
    · rw [if_neg hw, if_neg hw]
      rfl
  unfold joined
  rw [node_of_some hna, node_of_some hnb]
  dsimp only
  by_cases hl : nb.isLeaf = true
  · rw [if_pos hl, ← hd]
    obtain ⟨hprev, hnext⟩ := hlinks hl
    generalize hdd : (c.setNode a (na.insertPairs na.numKey nb.keys nb.rids nb.numKey)).adopts
      nb.isLeaf a nb.entries = d
    have hsome : ∀ u, (c.pages u).isSome → (d.pages u).isSome := by
      intro u hu
      rw [← hdd]
      exact isSome_adopts (isSome_setNode hu)
    have hnode : d.node b = nb := by
      rw [← hdd, hl, adopts, if_pos rfl, node_setNode, if_neg (Ne.symm hab), node_of_some hnb]
    -- whether the last leaf changes or not, the pages are the same
    have hgen : ∀ d' : IxCore κ, d'.pages = d.pages → (d'.unlinkLeaf b).view w = d.view w := by
      intro d' hd'
      have hdb : d'.node b = nb := by
        rw [← hnode, node, node, hd']
      rw [view_unlinkLeaf, view, hd']
      · rfl
      · rw [hdb, hd']
        exact hsome _ hprev
      · rw [hdb, hd']
        exact hsome _ hnext
    refine hgen _ ?_
    split <;> rfl
  · rw [if_neg hl, hd]

end

/-! ## The three moves on a tree -/

/-- A node with at least one entry, cut before its last. -/
theorem entries_last (h1 : 1 ≤ na.numKey) : na.entries = (na.entries.take (na.numKey - 1))
    ++ [(na.keys (na.numKey - 1), na.rids (na.numKey - 1))] := by
  have hat := IxNode.getElem?_entries (n := na) (i := na.numKey - 1) (by omega)
  have hlt : na.numKey - 1 < na.entries.length := by
    rw [IxNode.length_entries]
    omega
  have hdrop : na.entries.drop (na.numKey - 1)
      = [(na.keys (na.numKey - 1), na.rids (na.numKey - 1))] := by
    rw [List.drop_eq_getElem_cons hlt, List.drop_of_length_le (by rw [IxNode.length_entries]; omega)]
    rw [List.getElem?_eq_getElem hlt, Option.some.injEq] at hat
    rw [hat]
  rw [← hdrop, List.take_append_drop]

/-- A node with at least one entry, cut behind its first. -/
theorem entries_first (h1 : 1 ≤ nb.numKey) :
    nb.entries = (nb.keys 0, nb.rids 0) :: nb.entries.drop 1 := by
  have hhead := IxNode.entries_head (n := nb) (by omega)
  cases hent : nb.entries with
  | nil =>
      rw [hent] at hhead
      exact absurd hhead (by simp)
  | cons e l =>
      rw [hent, List.head?_cons, Option.some.injEq] at hhead
      rw [hhead]
      rfl

theorem entries_erase_first (h1 : 1 ≤ nb.numKey) :
    (nb.erasePair 0).entries = nb.entries.drop 1 := by
  have := IxNode.entries_erasePair_at (show nb.entries = [] ++ _ :: _ from entries_first h1)
  simpa using this

theorem entries_erase_last (h1 : 1 ≤ na.numKey) :
    (na.erasePair (na.numKey - 1)).entries = na.entries.take (na.numKey - 1) := by
  have hlen : (na.entries.take (na.numKey - 1)).length = na.numKey - 1 := by
    rw [List.length_take, IxNode.length_entries]
    omega
  have := IxNode.entries_erasePair_at (entries_last h1)
  rwa [hlen, List.append_nil] at this

theorem entries_insert_last {k : κ} {v : Rid} :
    (na.insertPair na.numKey k v).entries = na.entries ++ [(k, v)] := by
  rw [IxNode.entries_insertPair (Nat.le_refl _), List.take_of_length_le (by rw [IxNode.length_entries]),
    List.drop_of_length_le (by rw [IxNode.length_entries])]

theorem entries_insert_first {k : κ} {v : Rid} :
    (nb.insertPair 0 k v).entries = (k, v) :: nb.entries := by
  rw [IxNode.entries_insertPair (Nat.zero_le _)]
  rfl

section

variable (ht : Tree c h lay) (hj : j < h) (hy : lay (j + 1) = P ++ (ky, y) :: Q)
  (hK : c.kids y = K₁ ++ [(ka, a), (kb, b)] ++ K₂)
  (hna : c.pages a = some na) (hnb : c.pages b = some nb)

include ht hj hy hK

/-- What an entry of the pair names is none of the three. -/
theorem Tree.pair_entry {n : IxNode κ} {w : Int} (hw : w = a ∨ w = b)
    (hn : c.pages w = some n) (he : e ∈ n.entries) :
    ∀ u ∈ names (NodeView.kidsOf n.isLeaf [e]), u ≠ a ∧ u ≠ b ∧ u ≠ y := by
  intro u hu
  obtain ⟨L₁, L₂, hL⟩ := List.append_of_mem he
  have hkids : u ∈ names (c.kids w) := by
    rw [kids_of_view (view_of_pages hn)]
    show u ∈ names (NodeView.kidsOf n.isLeaf n.entries)
    rw [hL, NodeView.kidsOf_append, NodeView.kidsOf_cons, names, List.map_append, List.map_append]
    exact List.mem_append_right _ (List.mem_append_left _ hu)
  obtain ⟨_, h1, h2, h3, _⟩ := ht.pair_kid hj hy hK hw hkids
  exact ⟨h1, h2, h3⟩

include hna hnb

/-- What the tree says about the pages of the two and of their parent. -/
theorem Tree.pair_pages : na.isLeaf = decide (j = 0) ∧ nb.isLeaf = decide (j = 0)
    ∧ ∃ ny, c.pages y = some ny ∧ ny.isLeaf = false
      ∧ ny.view.kids = (K₁ ++ [(ka, a)]) ++ (kb, b) :: K₂ ∧ ny.parent = c.par y := by
  obtain ⟨hymem, ha, hb, _⟩ := ht.pair_site hj hy hK
  obtain ⟨na', hna', hla⟩ := ht.view_some (by omega) ha
  obtain ⟨nb', hnb', hlb⟩ := ht.view_some (by omega) hb
  obtain ⟨ny, hny, hly⟩ := ht.view_some (by omega) hymem
  obtain rfl : na = na' := Option.some.inj (hna.symm.trans hna')
  obtain rfl : nb = nb' := Option.some.inj (hnb.symm.trans hnb')
  refine ⟨hla, hlb, ny, hny, by rw [hly]; simp, ?_, ?_⟩
  · rw [← kids_of_view (view_of_pages hny), hK]
    simp
  · rw [par_of_view (view_of_pages hny)]
    rfl

theorem Tree.view_shiftLeft [Inhabited κ] (hny : c.pages y = some ny) (h1 : 1 ≤ nb.numKey) (rank : Nat) :
    (c.shiftLeft a b y rank).view w
      = if w ∈ names (NodeView.kidsOf na.isLeaf [(nb.keys 0, nb.rids 0)])
        then (c.view w).map (·.under a)
        else if w = y then some (ny.setKey rank ((nb.erasePair 0).keys 0)).view
        else if w = b then some (nb.erasePair 0).view
        else if w = a then some (na.insertPair na.numKey (nb.keys 0) (nb.rids 0)).view
        else c.view w := by
  obtain ⟨hla, hlb, _⟩ := ht.pair_pages hj hy hK hna hnb
  have hu := ht.pair_entry hj hy hK (.inr rfl) hnb
    (by rw [entries_first h1]; exact List.mem_cons_self)
  rw [hlb, ← hla] at hu
  rw [shiftLeft, node_of_some hna, node_of_some hnb, node_of_some hny, view_adopts, view_setNode,
    view_setNode, view_setNode]
  split
  · next hw =>
      obtain ⟨h1, h2, h3⟩ := hu w hw
      rw [if_neg h3, if_neg h2, if_neg h1]
  · rfl

theorem Tree.view_shiftRight [Inhabited κ] (hny : c.pages y = some ny) (h1 : 1 ≤ na.numKey) (rank : Nat) :
    (c.shiftRight a b y rank).view w
      = if w ∈ names (NodeView.kidsOf nb.isLeaf
          [(na.keys (na.numKey - 1), na.rids (na.numKey - 1))])
        then (c.view w).map (·.under b)
        else if w = y then some (ny.setKey rank (na.keys (na.numKey - 1))).view
        else if w = a then some (na.erasePair (na.numKey - 1)).view
        else if w = b then some (nb.insertPair 0 (na.keys (na.numKey - 1))
          (na.rids (na.numKey - 1))).view
        else c.view w := by
  obtain ⟨hla, hlb, _⟩ := ht.pair_pages hj hy hK hna hnb
  have hu := ht.pair_entry hj hy hK (.inl rfl) hna
    (e := (na.keys (na.numKey - 1), na.rids (na.numKey - 1))) (by rw [entries_last h1]; simp)
  rw [hla, ← hlb] at hu
  rw [shiftRight, node_of_some hna, node_of_some hnb, node_of_some hny, view_adopts, view_setNode,
    view_setNode, view_setNode]
  split
  · next hw =>
      obtain ⟨h1, h2, h3⟩ := hu w hw
      rw [if_neg h3, if_neg h1, if_neg h2]
  · rfl

/-- The two nodes after borrowing from the right one. -/
theorem Tree.pair_shiftLeft [Inhabited κ] (h1 : 1 ≤ nb.numKey) (rank : Nat) :
    (c.shiftLeft a b y rank).view a = some { na.view with
        entries := na.entries ++ [(nb.keys 0, nb.rids 0)] }
      ∧ (c.shiftLeft a b y rank).view b = some (nb.erasePair 0).view := by
  obtain ⟨_, _, _, hab, hay, hby⟩ := ht.pair_site hj hy hK
  obtain ⟨hla, hlb, ny, hny, _⟩ := ht.pair_pages hj hy hK hna hnb
  have hu := ht.pair_entry hj hy hK (.inr rfl) hnb
    (by rw [entries_first h1]; exact List.mem_cons_self)
  rw [hlb, ← hla] at hu
  rw [ht.view_shiftLeft hj hy hK hna hnb hny h1, ht.view_shiftLeft hj hy hK hna hnb hny h1,
    if_neg (fun hmem => (hu a hmem).1 rfl), if_neg hay, if_neg hab, if_pos rfl,
    if_neg (fun hmem => (hu b hmem).2.1 rfl), if_neg hby, if_pos rfl]
  refine ⟨congrArg (fun es => some (⟨es, na.isLeaf, na.parent⟩ : NodeView κ)) ?_, rfl⟩
  exact entries_insert_last

/-- The two nodes after borrowing from the left one. -/
theorem Tree.pair_shiftRight [Inhabited κ] (h1 : 1 ≤ na.numKey) (rank : Nat) :
    (c.shiftRight a b y rank).view a = some (na.erasePair (na.numKey - 1)).view
      ∧ (c.shiftRight a b y rank).view b = some { nb.view with
        entries := (na.keys (na.numKey - 1), na.rids (na.numKey - 1)) :: nb.entries } := by
  obtain ⟨_, _, _, hab, hay, hby⟩ := ht.pair_site hj hy hK
  obtain ⟨hla, hlb, ny, hny, _⟩ := ht.pair_pages hj hy hK hna hnb
  have hu := ht.pair_entry hj hy hK (.inl rfl) hna
    (e := (na.keys (na.numKey - 1), na.rids (na.numKey - 1))) (by rw [entries_last h1]; simp)
  rw [hla, ← hlb] at hu
  rw [ht.view_shiftRight hj hy hK hna hnb hny h1, ht.view_shiftRight hj hy hK hna hnb hny h1,
    if_neg (fun hmem => (hu a hmem).1 rfl), if_neg hay, if_pos rfl,
    if_neg (fun hmem => (hu b hmem).2.1 rfl), if_neg hby, if_neg (Ne.symm hab), if_pos rfl]
  refine ⟨rfl, congrArg (fun es => some (⟨es, nb.isLeaf, nb.parent⟩ : NodeView κ)) ?_⟩
  exact entries_insert_first

/-- **Borrowing from the right neighbour.** -/
theorem Tree.reshapes_shiftLeft [Inhabited κ] (h1 : 1 ≤ na.numKey) (h2 : 2 ≤ nb.numKey) :
    Reshapes c (c.shiftLeft a b y (K₁.length + 1)) h lay j y K₁ K₂ [(ka, a), (kb, b)]
      [(ka, a), ((nb.erasePair 0).keys 0, b)]
      (names (NodeView.kidsOf na.isLeaf [(nb.keys 0, nb.rids 0)])) a := by
  obtain ⟨_, _, _, hab, hay, hby⟩ := ht.pair_site hj hy hK
  obtain ⟨hla, hlb, ny, hny, hyl, hyk, hyp⟩ := ht.pair_pages hj hy hK hna hnb
  obtain ⟨hva, hvb⟩ := ht.pair_shiftLeft hj hy hK hna hnb (by omega) (K₁.length + 1)
  have hview := fun w => ht.view_shiftLeft (w := w) hj hy hK hna hnb hny (by omega) (K₁.length + 1)
  have hfirst : nb.entries = _ := entries_first (by omega)
  refine ht.reshapes_left hj hy hK (view_of_pages hna) (view_of_pages hnb)
    (congrArg IxFileHdr.rootPage hdr_adopts.1) hdr_adopts.2 hva hvb ?_ ?_ (hla.trans hlb.symm)
    ?_ ?_ ?_
  · refine congrArg (fun es => (⟨es, nb.isLeaf, nb.parent⟩ : NodeView κ)) ?_
    show nb.entries = (nb.keys 0, nb.rids 0) :: (nb.erasePair 0).entries
    rw [entries_erase_first (by omega), ← hfirst]
  · have hu := ht.pair_entry hj hy hK (.inr rfl) hnb
      (by rw [hfirst]; exact List.mem_cons_self)
    rw [hlb, ← hla] at hu
    refine ⟨_, by rw [hview y, if_neg (fun hmem => (hu y hmem).2.2 rfl), if_pos rfl], hyl, ?_, hyp⟩
    have := kids_setKey ((nb.erasePair 0).keys 0) hyl hyk
    rw [show (K₁ ++ [(ka, a)]).length = K₁.length + 1 by simp] at this
    rw [this]
    simp
  · intro w hwa hwb hwy
    rw [hview w, if_neg hwy, if_neg hwb, if_neg hwa]
    rfl
  · intro hnil
    have : na.entries.length = 0 := congrArg List.length hnil
    rw [IxNode.length_entries] at this
    omega
  · have := IxNode.entries_head (n := nb.erasePair 0) (by show 0 < nb.numKey - 1; omega)
    show (nb.erasePair 0).entries.head?.map Prod.fst = _
    rw [this]
    rfl

/-- **Borrowing from the left neighbour.** -/
theorem Tree.reshapes_shiftRight [Inhabited κ] (h2 : 2 ≤ na.numKey) :
    Reshapes c (c.shiftRight a b y (K₁.length + 1)) h lay j y K₁ K₂ [(ka, a), (kb, b)]
      [(ka, a), (na.keys (na.numKey - 1), b)]
      (names (NodeView.kidsOf nb.isLeaf [(na.keys (na.numKey - 1), na.rids (na.numKey - 1))]))
      b := by
  obtain ⟨_, _, _, hab, hay, hby⟩ := ht.pair_site hj hy hK
  obtain ⟨hla, hlb, ny, hny, hyl, hyk, hyp⟩ := ht.pair_pages hj hy hK hna hnb
  obtain ⟨hva, hvb⟩ := ht.pair_shiftRight hj hy hK hna hnb (by omega) (K₁.length + 1)
  have hview := fun w => ht.view_shiftRight (w := w) hj hy hK hna hnb hny (by omega) (K₁.length + 1)
  have hlast : na.entries = _ := entries_last (by omega)
  refine ht.reshapes_right hj hy hK (e := (na.keys (na.numKey - 1), na.rids (na.numKey - 1)))
    (view_of_pages hna) (view_of_pages hnb)
    (congrArg IxFileHdr.rootPage hdr_adopts.1) hdr_adopts.2 hva ?_ hvb ?_ (hla.trans hlb.symm) ?_ ?_
  · refine congrArg (fun es => (⟨es, na.isLeaf, na.parent⟩ : NodeView κ)) ?_
    show na.entries = (na.erasePair (na.numKey - 1)).entries ++ _
    rw [entries_erase_last (by omega), ← hlast]
  · have hu := ht.pair_entry hj hy hK (.inl rfl) hna
      (e := (na.keys (na.numKey - 1), na.rids (na.numKey - 1))) (by rw [hlast]; simp)
    rw [hla, ← hlb] at hu
    refine ⟨_, by rw [hview y, if_neg (fun hmem => (hu y hmem).2.2 rfl), if_pos rfl], hyl, ?_, hyp⟩
    have := kids_setKey (na.keys (na.numKey - 1)) hyl hyk
    rw [show (K₁ ++ [(ka, a)]).length = K₁.length + 1 by simp] at this
    rw [this]
    simp
  · intro w hwa hwb hwy
    rw [hview w, if_neg hwy, if_neg hwa, if_neg hwb]
    rfl
  · intro hnil
    have hlen : (na.erasePair (na.numKey - 1)).entries.length = 0 := congrArg List.length hnil
    rw [IxNode.length_entries] at hlen
    have : (na.erasePair (na.numKey - 1)).numKey = na.numKey - 1 := rfl
    omega

/-- **Merging.** -/
theorem Tree.reshapes_merged [Inhabited κ] (h1 : 1 ≤ na.numKey)
    (hlinks : nb.isLeaf = true → (c.pages nb.prevLeaf).isSome ∧ (c.pages nb.nextLeaf).isSome) :
    Reshapes c (c.merge a b y (K₁.length + 1)) h lay j y K₁ K₂ [(ka, a), (kb, b)] [(ka, a)]
      (names nb.view.kids) a := by
  obtain ⟨hymem, ha, hb, hab, hay, hby⟩ := ht.pair_site hj hy hK
  obtain ⟨hla, hlb, ny, hny, hyl, hyk, hyp⟩ := ht.pair_pages hj hy hK hna hnb
  have hkid : ∀ u ∈ names nb.view.kids, u ≠ a ∧ u ≠ b ∧ u ≠ y := by
    intro u hu
    rw [← kids_of_view (view_of_pages hnb)] at hu
    obtain ⟨_, h1, h2, h3, _⟩ := ht.pair_kid hj hy hK (.inr rfl) hu
    exact ⟨h1, h2, h3⟩
  have hjoin := fun w => view_joined (w := w) hna hnb hab hlinks (fun hmem => (hkid a hmem).1 rfl)
  -- the parent still has its entries when one is taken out
  obtain ⟨ny', hny', hyview⟩ := pages_of_view (c := c.joined a b) (w := y) (v := ny.view) (by
    rw [hjoin y, if_neg (Ne.symm hay), if_neg (fun hmem => (hkid y hmem).2.2 rfl),
      view_of_pages hny])
  have hyl' : ny'.isLeaf = false := (congrArg NodeView.isLeaf hyview).trans hyl
  have hview : ∀ w, (c.merge a b y (K₁.length + 1)).view w
      = if w = y then some (ny'.erasePair (K₁.length + 1)).view else (c.joined a b).view w := by
    intro w
    show (IxCore.setNode _ _ _).view w = _
    rw [view_setNode, node_of_some hny']
  obtain ⟨hhdr, hnext⟩ := hdr_joined hna hnb
  refine ht.reshapes_merge hj hy hK (na.insertPairs na.numKey nb.keys nb.rids nb.numKey).view
    (view_of_pages hna) (view_of_pages hnb) ?_ hnext ?_ ?_ rfl rfl ?_ ?_ ?_
  · show (c.joined a b).hdr.rootPage = _
    rw [hhdr]
  · rw [hview a, if_neg hay, hjoin a, if_pos rfl]
  · refine ⟨_, by rw [hview y, if_pos rfl], hyl', ?_, ?_⟩
    · have := kids_erasePair hyl' (hyview ▸ hyk)
      rw [show (K₁ ++ [(ka, a)]).length = K₁.length + 1 by simp] at this
      rw [this]
    · exact (congrArg NodeView.parent hyview).trans hyp
  · intro w hwa hwy
    rw [hview w, if_neg hwy, hjoin w, if_neg hwa]
  · show NodeView.kidsOf na.isLeaf (na.insertPairs _ _ _ _).entries
      = NodeView.kidsOf na.isLeaf na.entries ++ NodeView.kidsOf nb.isLeaf nb.entries
    rw [entries_joined, NodeView.kidsOf_append, hla, hlb]
  · intro hl hnil
    rw [NodeView.kids_of_inner hl] at hnil
    have hlen : (na.entries.map fun e => (e.1, e.2.pageNo)).length = 0 := congrArg List.length hnil
    rw [List.length_map, IxNode.length_entries] at hlen
    omega

end

/-- The entry of an inner node in its own parent has the node's first key. -/
theorem Tree.parent_entry (ht : Tree c h lay) (hj : j < h) (hy : y ∈ names (lay (j + 1)))
    (hny : c.pages y = some ny) : ny.parent = ixNoPage ∨ ∃ nz rank, ny.parent ≠ ixNoPage
      ∧ c.pages ny.parent = some nz ∧ nz.findChild y = some rank ∧ nz.keys rank = ny.keys 0
      ∧ ny.parent ∈ names (lay (j + 1 + 1)) ∧ j + 1 < h := by
  have hpar : c.par y = ny.parent := par_of_view (view_of_pages hny)
  rcases Nat.lt_or_ge (j + 1) h with hlt | hge
  · right
    obtain ⟨P, kz, Q, M₁, ky, M₂, hz, hM⟩ := ht.layered.locate hlt hy
    rw [hpar] at hz hM
    have hzmem : ny.parent ∈ names (lay (j + 1 + 1)) := by
      rw [hz]
      simp
    obtain ⟨nz, hnz, hzl⟩ := ht.view_some (by omega) hzmem
    have hzl' : nz.isLeaf = false := by
      rw [hzl]
      simp
    have hzk : nz.view.kids = M₁ ++ (ky, y) :: M₂ := by
      rw [← kids_of_view (view_of_pages hnz), hM]
    refine ⟨nz, M₁.length, ?_, hnz, ?_, ?_, hzmem, hlt⟩
    · rw [← hpar]
      intro hno
      have := (ht.par_eq_noPage (by omega) hy).mp hno
      omega
    · refine findChild_kids hzl' hzk ?_
      rw [← kids_of_view (view_of_pages hnz)]
      exact ht.layered.kids_nodup hlt hzmem
    · -- both are the label of `y`
      obtain ⟨L₁, e, L₂, hL, hL₁, he, _⟩ := entries_of_kids hzl' hzk
      obtain ⟨_, _, _, he'⟩ := IxNode.entries_at hL
      have hlen : M₁.length = L₁.length := by rw [← hL₁, List.length_map]
      have hkey : nz.keys M₁.length = ky := by
        rw [hlen]
        rw [he'] at he
        exact congrArg Prod.fst he
      have hlabel := ht.labels (j + 1) (by omega) hlt (ky, y) (by
        rw [ht.layered.layer_eq hlt hz, hM]
        simp)
      obtain ⟨ny', hny', hyl⟩ := ht.view_some (by omega) hy
      obtain rfl : ny = ny' := Option.some.inj (hny.symm.trans hny')
      rw [kids_of_view (view_of_pages hny)] at hlabel
      have hpos : 0 < ny.numKey := by
        by_contra h0
        have hnil : ny.entries = [] := by
          rw [← List.length_eq_zero_iff, IxNode.length_entries]
          omega
        have : ny.view.kids = [] := by
          show NodeView.kidsOf ny.isLeaf ny.entries = []
          rw [hnil]
          unfold NodeView.kidsOf
          split <;> rfl
        rw [this] at hlabel
        exact absurd hlabel (by simp)
      rw [IxNode.kids_head (by rw [hyl]; simp) hpos, Option.some.injEq] at hlabel
      rw [hkey, hlabel]
  · left
    rw [← hpar]
    exact (ht.par_eq_noPage (by omega) hy).mpr (by omega)

end IxCore

namespace IxIndexHandle

open IxCore

variable {κ : Type} {c : IxCore κ} {h j fuel : Nat}
  {lay : Nat → List (κ × Int)} {y a b curr : Int} {P Q K₁ K₂ : List (κ × Int)} {ky ka kb : κ}
  {na nb ny m : IxNode κ} {rank : Nat}

/-! ## Borrowing -/

/-- **`maintain_parent` from a node that is not the first child** sets one key and stops, since
the first key of the parent stays. -/
theorem yields_maintainParent_right [LinearOrder κ] [Inhabited κ] (hm : c.pages curr = some m)
    (hpar : m.parent = y)
    (hne : y ≠ ixNoPage) (hny : c.pages y = some ny) (hrank : ny.findChild curr = some rank)
    (h1 : 1 ≤ rank) (hup : ny.parent = ixNoPage ∨ ∃ nz rank', ny.parent ≠ ixNoPage
      ∧ c.pages ny.parent = some nz ∧ ny.parent ≠ y ∧ nz.findChild y = some rank'
      ∧ nz.keys rank' = ny.keys 0) (hfuel : 2 ≤ fuel) :
    Yields (maintainParent fuel curr) c
      (fun _ c' => c' = c.setNode y (ny.setKey rank (m.keys 0))) := by
  obtain ⟨fuel, rfl⟩ : ∃ f, fuel = f + 2 := ⟨fuel - 2, by omega⟩
  refine yields_maintainParent hm hpar hne hny hrank (fun heq => ?_) (fun _ => ?_)
  · -- the key is right already
    have hsame : ny.setKey rank (m.keys 0) = ny := by
      unfold IxNode.setKey
      rw [← heq, Function.update_eq_self]
    have hpages : Function.update c.pages y (some ny) = c.pages := by
      rw [← hny, Function.update_eq_self]
    rw [hsame, setNode, hpages]
  · have hy : (c.setNode y (ny.setKey rank (m.keys 0))).pages y
        = some (ny.setKey rank (m.keys 0)) := setNode_pages_self
    rcases hup with hroot | ⟨nz, rank', hne', hnz, hzy, hrank', hkey⟩
    · exact yields_maintainParent_root hy hroot
    · have hz : (c.setNode y (ny.setKey rank (m.keys 0))).pages ny.parent = some nz := by
        rw [setNode_pages_of_ne hzy, hnz]
      have hfirst : (ny.setKey rank (m.keys 0)).keys 0 = ny.keys 0 := by
        unfold IxNode.setKey
        exact Function.update_of_ne (by omega) ..
      refine yields_maintainParent hy rfl hne' hz hrank' (fun _ => rfl) (fun hgo => ?_)
      exact absurd (hkey.trans hfirst.symm) hgo

/-- `maintain_child` on the slot of an entry. -/
theorem yields_maintainChild_entry [Inhabited κ] {k : κ} {v : Rid} (hm : c.pages curr = some m)
    (hv : m.rids rank = v) (hchild : m.isLeaf = false → (c.pages v.pageNo).isSome) :
    Yields (maintainChild curr rank) c (fun _ c' => c' = c.adopts m.isLeaf curr [(k, v)]) := by
  cases hl : m.isLeaf with
  | true =>
      refine Yields.get_bind (fun s hs => ?_)
      rw [hs.node, node_of_some hm]
      refine yields_onlyIf_neg (by rw [hl]; simp) ?_
      rw [adopts, if_pos rfl]
  | false =>
      refine (yields_maintainChild hm hl (congrArg Rid.pageNo hv)
        (pages_of_isSome (hchild hl))).mono ?_
      rintro _ _ rfl
      rw [adopts, if_neg (by simp)]
      rfl

section

variable (ht : Tree c h lay) (hj : j < h) (hy : lay (j + 1) = P ++ (ky, y) :: Q)
  (hK : c.kids y = K₁ ++ [(ka, a), (kb, b)] ++ K₂)
  (hna : c.pages a = some na) (hnb : c.pages b = some nb)

include ht hj hy hK

/-- What `maintain_parent` needs to know above the parent, whatever became of the two. -/
theorem pair_above {c' : IxCore κ} (hny : c.pages y = some ny)
    (hsame : ∀ w, w ≠ a → w ≠ b → c'.pages w = c.pages w) :
    ny.parent = ixNoPage ∨ ∃ nz rank', ny.parent ≠ ixNoPage ∧ c'.pages ny.parent = some nz
      ∧ ny.parent ≠ y ∧ nz.findChild y = some rank' ∧ nz.keys rank' = ny.keys 0 := by
  obtain ⟨hymem, ha, hb, _⟩ := ht.pair_site hj hy hK
  rcases ht.parent_entry hj hymem hny with hroot | ⟨nz, rank', hne, hnz, hfind, hkey, hmem, hlt⟩
  · exact .inl hroot
  · have hlev : ∀ l w, l ≤ h → w ∈ names (lay l) → l ≠ j + 1 + 1 → ny.parent ≠ w := by
      rintro l w hl hw hne' heq
      exact hne' (ht.layered.apart l (j + 1 + 1) hl (by omega) w hw (heq ▸ hmem))
    refine .inr ⟨nz, rank', hne, ?_, hlev (j + 1) y (by omega) hymem (by omega), hfind, hkey⟩
    rw [hsame _ (hlev j a (by omega) ha (by omega)) (hlev j b (by omega) hb (by omega)), hnz]

/-- The page an entry of an inner node of the pair names is there. -/
theorem pair_child {n : IxNode κ} {w : Int} {i : Nat} (hw : w = a ∨ w = b)
    (hn : c.pages w = some n) (hl : n.isLeaf = false) (hi : i < n.numKey) :
    (c.pages (n.rids i).pageNo).isSome := by
  have hu : (n.rids i).pageNo ∈ names (c.kids w) := by
    rw [kids_of_view (view_of_pages hn), NodeView.kids_of_inner hl, names, List.map_map,
      List.mem_map]
    exact ⟨_, List.mem_map.mpr ⟨i, List.mem_range.mpr hi, rfl⟩, rfl⟩
  obtain ⟨_, _, _, _, i', _, hmem⟩ := ht.pair_kid hj hy hK hw hu
  exact ht.isSome (j := i') (by omega) hmem

include hna hnb

/-- The slots of the two in their parent. -/
theorem pair_slots (hny : c.pages y = some ny) : ny.findChild a = some K₁.length
    ∧ ny.findChild b = some (K₁.length + 1) ∧ na.parent = y ∧ nb.parent = y ∧ y ≠ ixNoPage := by
  obtain ⟨hymem, _⟩ := ht.pair_site hj hy hK
  obtain ⟨_, _, ny', hny', hyl, hyk, _⟩ := ht.pair_pages hj hy hK hna hnb
  obtain rfl : ny = ny' := Option.some.inj (hny.symm.trans hny')
  have hnd : (names ny.view.kids).Nodup := by
    rw [← kids_of_view (view_of_pages hny)]
    exact ht.layered.kids_nodup hj hymem
  have hyk' : ny.view.kids = K₁ ++ (ka, a) :: (kb, b) :: K₂ := by
    rw [hyk]
    simp
  refine ⟨findChild_kids hyl hyk' hnd, ?_, ?_, ?_, ?_⟩
  · have := findChild_kids hyl hyk hnd
    rwa [show (K₁ ++ [(ka, a)]).length = K₁.length + 1 by simp] at this
  · rw [← ht.layered.parent j hj y hymem a (by rw [hK]; simp), par_of_view (view_of_pages hna)]
    rfl
  · rw [← ht.layered.parent j hj y hymem b (by rw [hK]; simp), par_of_view (view_of_pages hnb)]
    rfl
  · rintro rfl
    have := (ht.range (j + 1) (by omega) _ hymem).1
    exact absurd this (by decide)

/-- **`Redistribute`, node on the left.** -/
theorem yields_redistribute_left [LinearOrder κ] [Inhabited κ] (h2 : 2 ≤ nb.numKey) (hfuel : 2 ≤ fuel) :
    Yields (redistribute fuel b a 0) c (fun _ c' => c' = c.shiftLeft a b y (K₁.length + 1)) := by
  obtain ⟨hymem, ha, hb, hab, hay, hby⟩ := ht.pair_site hj hy hK
  obtain ⟨hla, hlb, ny, hny, _⟩ := ht.pair_pages hj hy hK hna hnb
  obtain ⟨_, hslot, _, hpar, hne⟩ := pair_slots ht hj hy hK hna hnb hny
  unfold redistribute
  refine Yields.get_bind (fun s hs => ?_)
  rw [hs.node, hs.node, node_of_some hna, node_of_some hnb]
  refine (yields_modifyNode hna).then_do ?_
  refine (yields_modifyNode ((setNode_pages_of_ne (Ne.symm hab)).trans hnb)).then_do ?_
  have hsame : ∀ w, w ≠ a → w ≠ b → ((c.setNode a (na.insertPair na.numKey (nb.keys 0)
      (nb.rids 0))).setNode b (nb.erasePair 0)).pages w = c.pages w := by
    intro w hwa hwb
    rw [setNode_pages_of_ne hwb, setNode_pages_of_ne hwa]
  refine (yields_maintainParent_right (m := nb.erasePair 0) setNode_pages_self hpar hne
    ((hsame y (Ne.symm hay) (Ne.symm hby)).trans hny) hslot (by omega)
    (pair_above ht hj hy hK hny hsame) hfuel).then_do ?_
  have hpa : (((c.setNode a (na.insertPair na.numKey (nb.keys 0) (nb.rids 0))).setNode b
      (nb.erasePair 0)).setNode y (ny.setKey (K₁.length + 1) ((nb.erasePair 0).keys 0))).pages a
      = some (na.insertPair na.numKey (nb.keys 0) (nb.rids 0)) := by
    rw [setNode_pages_of_ne hay, setNode_pages_of_ne hab, setNode_pages_self]
  refine (yields_maintainChild_entry (k := nb.keys 0) (v := nb.rids 0) hpa ?_ ?_).mono ?_
  · unfold IxNode.insertPair IxNode.insertPairs
    dsimp only
    rw [if_neg (by omega), if_pos (by omega)]
  · intro hl
    refine isSome_setNode (isSome_setNode (isSome_setNode ?_))
    have hl' : na.isLeaf = false := hl
    exact pair_child ht hj hy hK (.inr rfl) hnb (by rw [hlb, ← hla, hl']) (by omega)
  · rintro _ _ rfl
    rw [shiftLeft, node_of_some hna, node_of_some hnb, node_of_some hny]
    rfl

/-- **`Redistribute`, node on the right.** -/
theorem yields_redistribute_right [LinearOrder κ] [Inhabited κ] (h1 : 1 ≤ na.numKey) (hfuel : 2 ≤ fuel) :
    Yields (redistribute fuel a b (K₁.length + 1)) c
      (fun _ c' => c' = c.shiftRight a b y (K₁.length + 1)) := by
  obtain ⟨hymem, ha, hb, hab, hay, hby⟩ := ht.pair_site hj hy hK
  obtain ⟨hla, hlb, ny, hny, _⟩ := ht.pair_pages hj hy hK hna hnb
  obtain ⟨_, hslot, _, hpar, hne⟩ := pair_slots ht hj hy hK hna hnb hny
  unfold redistribute
  refine Yields.get_bind (fun s hs => ?_)
  rw [hs.node, hs.node, node_of_some hna, node_of_some hnb, if_neg (by omega)]
  refine (yields_modifyNode hnb).then_do ?_
  refine (yields_modifyNode ((setNode_pages_of_ne hab).trans hna)).then_do ?_
  have hsame : ∀ w, w ≠ a → w ≠ b → ((c.setNode b (nb.insertPair 0 (na.keys (na.numKey - 1))
      (na.rids (na.numKey - 1)))).setNode a (na.erasePair (na.numKey - 1))).pages w
      = c.pages w := by
    intro w hwa hwb
    rw [setNode_pages_of_ne hwa, setNode_pages_of_ne hwb]
  refine (yields_maintainParent_right
    (m := nb.insertPair 0 (na.keys (na.numKey - 1)) (na.rids (na.numKey - 1)))
    ((setNode_pages_of_ne (Ne.symm hab)).trans setNode_pages_self) hpar hne
    ((hsame y (Ne.symm hay) (Ne.symm hby)).trans hny) hslot (by omega) (pair_above ht hj hy hK hny hsame) hfuel).then_do ?_
  have hpb : (((c.setNode b (nb.insertPair 0 (na.keys (na.numKey - 1))
      (na.rids (na.numKey - 1)))).setNode a (na.erasePair (na.numKey - 1))).setNode y
      (ny.setKey (K₁.length + 1) ((nb.insertPair 0 (na.keys (na.numKey - 1))
        (na.rids (na.numKey - 1))).keys 0))).pages b
      = some (nb.insertPair 0 (na.keys (na.numKey - 1)) (na.rids (na.numKey - 1))) := by
    rw [setNode_pages_of_ne hby, setNode_pages_of_ne (Ne.symm hab), setNode_pages_self]
  refine (yields_maintainChild_entry (k := na.keys (na.numKey - 1))
    (v := na.rids (na.numKey - 1)) hpb rfl ?_).mono ?_
  · intro hl
    refine isSome_setNode (isSome_setNode (isSome_setNode ?_))
    have hl' : nb.isLeaf = false := hl
    exact pair_child ht hj hy hK (.inl rfl) hna (by rw [hla, ← hlb, hl']) (by omega)
  · rintro _ _ rfl
    rw [shiftRight, node_of_some hna, node_of_some hnb, node_of_some hny]
    rfl

/-- **`Coalesce`, up to the call for the parent.** -/
theorem yields_coalesce [Inhabited κ] {again : Int → IxM κ Bool} {R : Bool → IxCore κ → Prop}
    {neighbor node : Int} {index : Nat} (hleft : (if index = 0 then node else neighbor) = a)
    (hright : (if index = 0 then neighbor else node) = b)
    (hlinks : nb.isLeaf = true → (c.pages nb.prevLeaf).isSome ∧ (c.pages nb.nextLeaf).isSome)
    (hagain : Yields (again y) (c.merge a b y (K₁.length + 1)) R) :
    Yields (coalesce again neighbor node y index) c R := by
  obtain ⟨hymem, ha, hb, hab, hay, hby⟩ := ht.pair_site hj hy hK
  obtain ⟨hla, hlb, ny, hny, hyl, hyk, _⟩ := ht.pair_pages hj hy hK hna hnb
  obtain ⟨_, hslot, _, _, _⟩ := pair_slots ht hj hy hK hna hnb hny
  have hkid : ∀ u ∈ names nb.view.kids, u ≠ a ∧ u ≠ b ∧ u ≠ y := by
    intro u hu
    rw [← kids_of_view (view_of_pages hnb)] at hu
    obtain ⟨_, h1, h2, h3, _⟩ := ht.pair_kid hj hy hK (.inr rfl) hu
    exact ⟨h1, h2, h3⟩
  unfold coalesce
  rw [hleft, hright]
  refine Yields.get_bind (fun s hs => ?_)
  rw [hs.node, hs.node, node_of_some hna, node_of_some hnb, hs.fileHdr]
  refine (yields_modifyNode hna).then_do ?_
  have hpa : (c.setNode a (na.insertPairs na.numKey nb.keys nb.rids nb.numKey)).pages a
      = some (na.insertPairs na.numKey nb.keys nb.rids nb.numKey) := setNode_pages_self
  -- the rest, from the state in which the entries are joined
  have hrest : Yields (do
      let rightIdx ← findChild y b
      modifyNode y (·.erasePair rightIdx)
      releaseNodeHandle
      unpinPage b
      modify fun s : IxIndexHandle κ => { s with store := s.store.deletePage b }
      unpinPage a
      again y) (c.joined a b) R := by
    have hyj : (c.joined a b).view y = some ny.view := by
      rw [view_joined hna hnb hab hlinks (fun hmem => (hkid a hmem).1 rfl), if_neg (Ne.symm hay),
        if_neg (fun hmem => (hkid y hmem).2.2 rfl), view_of_pages hny]
    obtain ⟨ny', hny', hyview⟩ := pages_of_view hyj
    have hyl' : ny'.isLeaf = false := (congrArg NodeView.isLeaf hyview).trans hyl
    have hslot' : ny'.findChild b = some (K₁.length + 1) := by
      have hnd : (names ny'.view.kids).Nodup := by
        rw [hyview, ← kids_of_view (view_of_pages hny)]
        exact ht.layered.kids_nodup hj hymem
      have := findChild_kids hyl' (hyview ▸ hyk) hnd
      rwa [show (K₁ ++ [(ka, a)]).length = K₁.length + 1 by simp] at this
    refine (yields_findChild hny' hslot').then_at ?_
    refine (yields_modifyNode hny').then_do ?_
    refine yields_modifyHdr.then_do (yields_unpinPage.then_do (yields_deletePage.then_do
      (yields_unpinPage.then_do ?_)))
    have hmerge : { (c.joined a b).setNode y (ny'.erasePair (K₁.length + 1)) with
        hdr := { (c.joined a b).hdr with numPages := (c.joined a b).hdr.numPages - 1 } }
        = c.merge a b y (K₁.length + 1) := by
      unfold merge addPages
      rw [node_of_some hny']
      rfl
    show Yields _ { (c.joined a b).setNode y (ny'.erasePair (K₁.length + 1)) with
        hdr := { (c.joined a b).hdr with numPages := (c.joined a b).hdr.numPages - 1 } } _
    rw [hmerge]
    exact hagain
  cases hl : nb.isLeaf with
  | false =>
      rw [onlyIf_pos rfl, onlyIf_neg (by simp), pure_bind]
      have hal : na.isLeaf = false := by rw [hla, ← hlb, hl]
      have hrids : ∀ i, i < nb.numKey →
          (na.insertPairs na.numKey nb.keys nb.rids nb.numKey).rids (na.numKey + i) = nb.rids i := by
        intro i hi
        unfold IxNode.insertPairs
        dsimp only
        rw [if_neg (by omega), if_pos (by omega)]
        congr 1
        omega
      refine (yields_maintainChildren (fun i => na.numKey + i) _ hpa hal ?_).then_do ?_
      · intro i hi
        rw [List.mem_range] at hi
        rw [hrids i hi]
        exact isSome_setNode (pair_child ht hj hy hK (.inr rfl) hnb hl hi)
      · have hmoved : (List.range nb.numKey).map (fun i =>
            ((na.insertPairs na.numKey nb.keys nb.rids nb.numKey).rids (na.numKey + i)).pageNo)
            = nb.entries.map (·.2.pageNo) := by
          rw [IxNode.entries, List.map_map]
          refine List.map_congr_left (fun i hi => ?_)
          rw [hrids i (List.mem_range.mp hi)]
          rfl
        rw [hmoved]
        have hjoined : c.joined a b = (c.setNode a (na.insertPairs na.numKey nb.keys nb.rids
            nb.numKey)).adopt a (nb.entries.map (·.2.pageNo)) := by
          rw [joined, node_of_some hna, node_of_some hnb, adopts, hl]
          rfl
        rw [← hjoined]
        exact hrest
  | true =>
      rw [onlyIf_neg (by simp), pure_bind, onlyIf_pos rfl]
      obtain ⟨hprev, hnext⟩ := hlinks hl
      have hpb : (c.setNode a (na.insertPairs na.numKey nb.keys nb.rids nb.numKey)).pages b
          = some nb := (setNode_pages_of_ne (Ne.symm hab)).trans hnb
      have hjoined : c.joined a b = (if b = c.hdr.lastLeaf
          then (c.setNode a (na.insertPairs na.numKey nb.keys nb.rids nb.numKey)).setLast a
          else c.setNode a (na.insertPairs na.numKey nb.keys nb.rids nb.numKey)).unlinkLeaf b := by
        rw [joined, node_of_some hna, node_of_some hnb, adopts, hl]
        rfl
      rw [hjoined] at hrest
      rw [bind_assoc]
      by_cases hlast : b = c.hdr.lastLeaf
      · rw [onlyIf_pos hlast]
        rw [if_pos hlast] at hrest
        refine yields_modifyHdr.then_do ?_
        refine (yields_eraseLeaf (c := (c.setNode a (na.insertPairs na.numKey nb.keys nb.rids
          nb.numKey)).setLast a) hpb hl (isSome_setNode hprev) (isSome_setNode hnext)).then_do ?_
        exact hrest
      · rw [onlyIf_neg hlast, pure_bind]
        rw [if_neg hlast] at hrest
        refine (yields_eraseLeaf hpb hl (isSome_setNode hprev) (isSome_setNode hnext)).then_do ?_
        exact hrest

end

end IxIndexHandle

end Rucbase
