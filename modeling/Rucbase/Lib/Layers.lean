import Mathlib.Data.List.Nodup
import Mathlib.Logic.Function.Basic

/-!
# Trees in layers

A tree kept in memory as nodes with lists of labelled children and a pointer to the parent,
described layer by layer: `lay h` is the root alone, `lay j` is what the nodes of `lay (j + 1)`
list as their children, in order, and `lay 0` are the leaves, all at the same depth.

Splitting, merging or shifting children between neighbours rewrites a window of one layer and
leaves the layer below as it is, because the children are still the same in the same order.
`Layered.window` is this one change; `Layered.grow` and `Layered.collapse` are a new root and a
root with one child given up.
-/

namespace Rucbase.Lib

variable {κ ν : Type}

/-- The nodes of a list of labelled nodes. -/
abbrev names (l : List (κ × ν)) : List ν := l.map Prod.snd

/-- The children of all nodes of a list. -/
abbrev below (kids : ν → List (κ × ν)) (l : List (κ × ν)) : List (κ × ν) :=
  l.flatMap fun e => kids e.2

structure Layered (kids : ν → List (κ × ν)) (par : ν → ν) (root : ν) (h : Nat)
    (lay : Nat → List (κ × ν)) : Prop where
  top : names (lay h) = [root]
  down : ∀ j, j < h → lay j = below kids (lay (j + 1))
  leaf : ∀ x ∈ names (lay 0), kids x = []
  nodup : ∀ j, j ≤ h → (names (lay j)).Nodup
  apart : ∀ i j, i ≤ h → j ≤ h → ∀ x, x ∈ names (lay i) → x ∈ names (lay j) → i = j
  parent : ∀ j, j < h → ∀ y ∈ names (lay (j + 1)), ∀ x ∈ names (kids y), par x = y

variable {kids kids' : ν → List (κ × ν)} {par par' : ν → ν} {root x y : ν} {h j i : Nat}
  {lay : Nat → List (κ × ν)} {l P Q A B K₁ K₂ W W' : List (κ × ν)} {k : κ}

theorem below_congr (hl : ∀ x ∈ names l, kids' x = kids x) : below kids' l = below kids l :=
  List.flatMap_congr (fun e he => hl e.2 (List.mem_map_of_mem he))

theorem below_append {m : List (κ × ν)} : below kids (l ++ m) = below kids l ++ below kids m :=
  List.flatMap_append

theorem mem_names_append {m : List (κ × ν)} : x ∈ names (l ++ m) ↔ x ∈ names l ∨ x ∈ names m := by
  rw [names, List.map_append, List.mem_append]

theorem below_singleton : below kids [(k, x)] = kids x := List.append_nil _

theorem below_pair {k' : κ} : below kids [(k, x), (k', y)] = kids x ++ kids y :=
  congrArg (kids x ++ ·) (List.append_nil _)

theorem mem_names_below : x ∈ names (below kids l) ↔ ∃ y ∈ names l, x ∈ names (kids y) := by
  simp only [List.mem_map, List.mem_flatMap]
  constructor
  · rintro ⟨e, ⟨f, hf, he⟩, rfl⟩
    exact ⟨f.2, ⟨f, hf, rfl⟩, e, he, rfl⟩
  · rintro ⟨_, ⟨f, hf, rfl⟩, e, he, rfl⟩
    exact ⟨e, ⟨f, hf, he⟩, rfl⟩

/-- A node of a list splits it. -/
theorem split_of_mem_names (hx : x ∈ names l) : ∃ P k Q, l = P ++ (k, x) :: Q := by
  obtain ⟨e, he, rfl⟩ := List.mem_map.mp hx
  obtain ⟨P, Q, hPQ⟩ := List.append_of_mem he
  exact ⟨P, e.1, Q, hPQ⟩

namespace Layered

/-- Where a node below the root hangs. -/
theorem locate (hl : Layered kids par root h lay) (hj : j < h) (hx : x ∈ names (lay j)) :
    ∃ P ky Q K₁ kx K₂, lay (j + 1) = P ++ (ky, par x) :: Q
      ∧ kids (par x) = K₁ ++ (kx, x) :: K₂ := by
  rw [hl.down j hj, mem_names_below] at hx
  obtain ⟨y, hy, hxy⟩ := hx
  rw [hl.parent j hj y hy x hxy]
  obtain ⟨P, ky, Q, hPQ⟩ := split_of_mem_names hy
  obtain ⟨K₁, kx, K₂, hK⟩ := split_of_mem_names hxy
  exact ⟨P, ky, Q, K₁, kx, K₂, hPQ, hK⟩

/-- The layer below a node, cut at its children. -/
theorem layer_eq (hl : Layered kids par root h lay) (hj : j < h)
    (hy : lay (j + 1) = P ++ (k, y) :: Q) :
    lay j = below kids P ++ kids y ++ below kids Q := by
  rw [hl.down j hj, hy, below, List.flatMap_append, List.flatMap_cons, ← List.append_assoc]

/-- The same, cut at a window among the children of the node. -/
theorem layer_cut (hl : Layered kids par root h lay) (hj : j < h)
    (hy : lay (j + 1) = P ++ (k, y) :: Q) (hK : kids y = K₁ ++ W ++ K₂) :
    lay j = (below kids P ++ K₁) ++ W ++ (K₂ ++ below kids Q) := by
  rw [hl.layer_eq hj hy, hK]
  simp only [List.append_assoc]

theorem root_mem (hl : Layered kids par root h lay) : root ∈ names (lay h) := by
  rw [hl.top]
  exact List.mem_singleton_self _

/-- The children of a node are in the layer below it. -/
theorem kid_mem (hl : Layered kids par root h lay) (hj : j < h) (hy : y ∈ names (lay (j + 1)))
    (hx : x ∈ names (kids y)) : x ∈ names (lay j) := by
  rw [hl.down j hj, mem_names_below]
  exact ⟨y, hy, hx⟩

/-- A node has its children once. -/
theorem kids_nodup (hl : Layered kids par root h lay) (hj : j < h)
    (hy : y ∈ names (lay (j + 1))) : (names (kids y)).Nodup := by
  obtain ⟨P, ky, Q, hPQ⟩ := split_of_mem_names hy
  have hnodup := hl.nodup j (by omega)
  rw [hl.layer_eq hj hPQ, names, List.map_append, List.map_append, List.nodup_append,
    List.nodup_append] at hnodup
  exact hnodup.1.2.1

/-- The top layer is the root. -/
theorem top_eq (hl : Layered kids par root h lay) : ∃ k, lay h = [(k, root)] := by
  have htop := hl.top
  cases hlay : lay h with
  | nil =>
      rw [hlay] at htop
      exact absurd htop (by simp)
  | cons e l =>
      rw [hlay, names, List.map_cons, List.cons.injEq, List.map_eq_nil_iff] at htop
      exact ⟨e.1, by rw [htop.2, ← htop.1]⟩

/-- The root is alone in its layer. -/
theorem eq_root (hl : Layered kids par root h lay) (hx : x ∈ names (lay h)) : x = root := by
  rw [hl.top] at hx
  exact List.mem_singleton.mp hx

/-- Nodes of two layers are two nodes. -/
theorem ne_of_lt (hl : Layered kids par root h lay) (hij : i < j) (hj : j ≤ h)
    (hx : x ∈ names (lay i)) (hy : y ∈ names (lay j)) : x ≠ y := by
  rintro rfl
  have := hl.apart i j (by omega) hj x hx hy
  omega

/-- Below the top layer no node is the root. -/
theorem ne_root (hl : Layered kids par root h lay) (hi : i < h) (hx : x ∈ names (lay i)) :
    x ≠ root := hl.ne_of_lt hi (Nat.le_refl _) hx hl.root_mem

/-- Its layer tells the root from the other nodes. -/
theorem ne_root_iff (hl : Layered kids par root h lay) (hi : i ≤ h) (hx : x ∈ names (lay i)) :
    x ≠ root ↔ i < h := by
  refine ⟨fun hne => ?_, fun hi => hl.ne_root hi hx⟩
  by_contra hge
  obtain rfl : i = h := by omega
  exact hne (hl.eq_root hx)

end Layered

/-- A change of memory that rewrites the window `W` among the children of `y` to `W'`. Nodes
that appear in `W'` were in `W` or are new; the children below the window stay the same, in the
same order. -/
structure Rewrites (kids kids' : ν → List (κ × ν)) (par par' : ν → ν) (h : Nat)
    (lay : Nat → List (κ × ν)) (y : ν) (W W' : List (κ × ν)) : Prop where
  other : ∀ i, i ≤ h → ∀ v ∈ names (lay i), v ≠ y → v ∉ names W → v ∉ names W' →
    kids' v = kids v
  same : below kids' W' = below kids W
  nodup : (names W').Nodup
  fresh : ∀ v ∈ names W', v ∈ names W ∨ ∀ i, i ≤ h → v ∉ names (lay i)
  hung : ∀ v ∈ names W', par' v = y
  adopted : ∀ v ∈ names W', ∀ u ∈ names (kids' v), par' u = v
  kept : ∀ i, i ≤ h → ∀ v ∈ names (lay i), v ∉ names W' → v ∉ names (below kids' W') →
    par' v = par v

/-- A node of the tree that is in the new window was in the old one. -/
theorem Rewrites.old (hr : Rewrites kids kids' par par' h lay y W W') (hi : i ≤ h)
    (hx : x ∈ names (lay i)) (hx' : x ∈ names W') : x ∈ names W :=
  (hr.fresh x hx').resolve_right (fun hn => hn i hi hx)

namespace Layered

/-- A layer cut around a window: the parts share no node. -/
theorem cut_disjoint (hl : Layered kids par root h lay) (hj : j ≤ h)
    (hcut : lay j = A ++ W ++ B) :
    (∀ v ∈ names W, v ∉ names A ∧ v ∉ names B)
      ∧ (names A).Nodup ∧ (names B).Nodup ∧ ∀ v ∈ names A, v ∉ names B := by
  have hnodup := hl.nodup j hj
  rw [hcut, names, List.map_append, List.map_append, List.nodup_append, List.nodup_append] at hnodup
  obtain ⟨⟨hA, _, hAW⟩, hB, hAB⟩ := hnodup
  refine ⟨?_, hA, hB, ?_⟩
  · intro v hv
    exact ⟨fun hmem => hAW v hmem v hv rfl, fun hmem => hAB v (List.mem_append_right _ hv) v hmem rfl⟩
  · intro v hv hmem
    exact hAB v (List.mem_append_left _ hv) v hmem rfl

theorem mem_cut (hcut : lay j = A ++ W ++ B) :
    x ∈ names (lay j) ↔ x ∈ names A ∨ x ∈ names W ∨ x ∈ names B := by
  rw [hcut]
  simp only [names, List.map_append, List.mem_append, or_assoc]

section

variable (hl : Layered kids par root h lay) (hr : Rewrites kids kids' par par' h lay y W W')
  (hj : j ≤ h) (hcut : lay j = A ++ W ++ B)

include hl hr hj hcut

/-- In the other layers only `y` has other children. -/
theorem kids_off (hi : i ≤ h) (hij : i ≠ j) (hx : x ∈ names (lay i)) (hxy : x ≠ y) :
    kids' x = kids x := by
  have hW : x ∉ names W := by
    intro hmem
    exact hij (hl.apart i j hi hj x hx ((mem_cut hcut).mpr (.inr (.inl hmem))))
  exact hr.other i hi x hx hxy hW (fun hmem => hW (hr.old hi hx hmem))

/-- Beside the window nothing changes. -/
theorem kids_beside (hy : y ∉ names (lay j)) (hx : x ∈ names A ∨ x ∈ names B) :
    kids' x = kids x := by
  have hxj : x ∈ names (lay j) := (mem_cut hcut).mpr (by tauto)
  have hW : x ∉ names W := by
    intro hmem
    obtain ⟨hA, hB⟩ := (hl.cut_disjoint hj hcut).1 x hmem
    exact hx.elim hA hB
  exact hr.other j hj x hxj (fun heq => hy (heq ▸ hxj)) hW (fun hmem => hW (hr.old hj hxj hmem))

/-- **The layer below the window stays.** -/
theorem below_rewritten (hy : y ∉ names (lay j)) :
    below kids' (A ++ W' ++ B) = below kids (lay j) := by
  have hA : below kids' A = below kids A :=
    below_congr (fun x hx => hl.kids_beside hr hj hcut hy (.inl hx))
  have hB : below kids' B = below kids B :=
    below_congr (fun x hx => hl.kids_beside hr hj hcut hy (.inr hx))
  rw [hcut, below_append, below_append, below_append, below_append, hA, hB, hr.same]

/-- The parents of the nodes in other layers that are not below the window are kept. -/
theorem par_off (hi : i ≤ h) (hij : i ≠ j) (hx : x ∈ names (lay i))
    (hW : x ∉ names (below kids W)) : par' x = par x := by
  refine hr.kept i hi x hx ?_ (by rw [hr.same]; exact hW)
  intro hmem
  exact hij (hl.apart i j hi hj x hx ((mem_cut hcut).mpr (.inr (.inl (hr.old hi hx hmem)))))

omit hr in
/-- What is below the window is one layer further down. -/
theorem below_window_level (hi : i ≤ h) (hx : x ∈ names (lay i))
    (hW : x ∈ names (below kids W)) : i + 1 = j := by
  obtain ⟨v, hv, hxv⟩ := mem_names_below.mp hW
  have hvj : v ∈ names (lay j) := (mem_cut hcut).mpr (.inr (.inl hv))
  rcases Nat.eq_zero_or_pos j with h0 | hpos
  · rw [h0] at hvj
    rw [hl.leaf v hvj] at hxv
    exact absurd hxv (by simp)
  · obtain ⟨m, rfl⟩ : ∃ m, j = m + 1 := ⟨j - 1, by omega⟩
    rw [hl.apart i m hi (by omega) x hx (hl.kid_mem (by omega) hvj hxv)]

/-- Parents in the layers that the change leaves as they are, the one below the window
included. -/
theorem parent_off (hi : i < h) (hij : i ≠ j) (hx : x ∈ names (lay (i + 1))) (hxy : x ≠ y)
    (hside : i + 1 = j → y ∉ names (lay j) ∧ (x ∈ names A ∨ x ∈ names B)) {u : ν}
    (hu : u ∈ names (kids' x)) : par' u = x := by
  have hkids : kids' x = kids x := by
    by_cases hij' : i + 1 = j
    · exact hl.kids_beside hr hj hcut (hside hij').1 (hside hij').2
    · exact hl.kids_off hr hj hcut (by omega) hij' hx hxy
  rw [hkids] at hu
  have hui := hl.kid_mem (by omega) hx hu
  rw [← hl.parent i (by omega) x hx u hu]
  refine hl.par_off hr hj hcut (by omega) hij hui ?_
  intro hW
  -- a child of the window would have its parent there
  have hij' := hl.below_window_level hj hcut (by omega) hui hW
  obtain ⟨v, hv, huv⟩ := mem_names_below.mp hW
  have hvx : v = x := by
    have hvj : v ∈ names (lay (i + 1)) := by
      rw [hij']
      exact (mem_cut hcut).mpr (.inr (.inl hv))
    rw [← hl.parent i (by omega) v hvj u huv, hl.parent i (by omega) x hx u hu]
  obtain ⟨hA, hB⟩ := (hl.cut_disjoint hj hcut).1 v hv
  rw [hvx] at hA hB
  exact (hside hij').2.elim hA hB

end

theorem mem_rewritten :
    x ∈ names (A ++ W' ++ B) ↔ x ∈ names W' ∨ x ∈ names A ∨ x ∈ names B := by
  simp only [names, List.map_append, List.mem_append]
  tauto

section

variable (hl : Layered kids par root h lay) (hr : Rewrites kids kids' par par' h lay y W W')
  (hj : j ≤ h) (hcut : lay j = A ++ W ++ B)

include hl hr hj hcut

/-- The new window shares no node with what is beside it. -/
theorem window_disjoint (hx : x ∈ names W') : x ∉ names A ∧ x ∉ names B := by
  obtain ⟨hWAB, _⟩ := hl.cut_disjoint hj hcut
  constructor
  · intro hmem
    exact (hWAB x (hr.old hj ((mem_cut hcut).mpr (.inl hmem)) hx)).1 hmem
  · intro hmem
    exact (hWAB x (hr.old hj ((mem_cut hcut).mpr (.inr (.inr hmem))) hx)).2 hmem

theorem rewritten_nodup : (names (A ++ W' ++ B)).Nodup := by
  obtain ⟨_, hA, hB, hAB⟩ := hl.cut_disjoint hj hcut
  rw [names, List.map_append, List.map_append, List.nodup_append, List.nodup_append]
  refine ⟨⟨hA, hr.nodup, ?_⟩, hB, ?_⟩
  · rintro u hu v hv rfl
    exact (hl.window_disjoint hr hj hcut hv).1 hu
  · rintro u hu v hv rfl
    rcases List.mem_append.mp hu with hu | hu
    · exact hAB u hu hv
    · exact (hl.window_disjoint hr hj hcut hu).2 hv

theorem rewritten_apart (hi : i ≤ h) (hij : i ≠ j) (hx : x ∈ names (lay i)) :
    x ∉ names (A ++ W' ++ B) := by
  have hxj : x ∉ names (lay j) := fun hmem => hij (hl.apart i j hi hj x hx hmem)
  rw [mem_cut hcut] at hxj
  rw [mem_rewritten]
  rintro (hmem | hmem | hmem)
  · exact hxj (.inr (.inl (hr.old hi hx hmem)))
  · exact hxj (.inl hmem)
  · exact hxj (.inr (.inr hmem))

theorem rewritten_leaf (hy : y ∉ names (lay j)) (h0 : j = 0) (hx : x ∈ names (A ++ W' ++ B)) :
    kids' x = [] := by
  have hleaf : ∀ v ∈ names (lay j), kids v = [] := by
    rw [h0]
    exact hl.leaf
  rcases mem_rewritten.mp hx with hmem | hmem
  · have hnil : below kids' W' = [] := by
      rw [hr.same]
      refine List.flatMap_eq_nil_iff.mpr (fun e he => hleaf e.2 ?_)
      exact (mem_cut hcut).mpr (.inr (.inl (List.mem_map_of_mem he)))
    obtain ⟨e, he, rfl⟩ := List.mem_map.mp hmem
    exact List.flatMap_eq_nil_iff.mp hnil e he
  · rw [hl.kids_beside hr hj hcut hy hmem]
    exact hleaf x ((mem_cut hcut).mpr (by tauto))

/-- Beside the window the parents are as before. -/
theorem par_beside (hx : x ∈ names A ∨ x ∈ names B) : par' x = par x := by
  have hxj : x ∈ names (lay j) := (mem_cut hcut).mpr (by tauto)
  refine hr.kept j hj x hxj ?_ ?_
  · intro hmem
    obtain ⟨hA, hB⟩ := hl.window_disjoint hr hj hcut hmem
    exact hx.elim hA hB
  · rw [hr.same]
    intro hmem
    have := hl.below_window_level hj hcut hj hxj hmem
    omega

end

/-- **Rewriting a window of one layer.** -/
theorem window (hl : Layered kids par root h lay) (hj : j < h)
    (hy : lay (j + 1) = P ++ (k, y) :: Q) (hK : kids y = K₁ ++ W ++ K₂)
    (hK' : kids' y = K₁ ++ W' ++ K₂) (hr : Rewrites kids kids' par par' h lay y W W') :
    Layered kids' par' root h (Function.update lay j
      ((below kids P ++ K₁) ++ W' ++ (K₂ ++ below kids Q))) := by
  have hcut : lay j = (below kids P ++ K₁) ++ W ++ (K₂ ++ below kids Q) :=
    hl.layer_cut hj hy hK
  have hjh : j ≤ h := by omega
  have hymem : y ∈ names (lay (j + 1)) := by
    rw [hy]
    simp
  have hyi : ∀ i, i ≤ h → y ∈ names (lay i) → i = j + 1 :=
    fun i hi hmem => hl.apart i (j + 1) hi (by omega) y hmem hymem
  have hyj : y ∉ names (lay j) := by
    intro hmem
    have := hyi j hjh hmem
    omega
  have hother : ∀ i, i ≠ j → Function.update lay j
      ((below kids P ++ K₁) ++ W' ++ (K₂ ++ below kids Q)) i = lay i :=
    fun i hi => Function.update_of_ne hi ..
  have hkids : ∀ i, i ≤ h → i ≠ j → ∀ v ∈ names (lay i), v ≠ y → kids' v = kids v :=
    fun i hi hij v hv hvy => hl.kids_off hr hjh hcut hi hij hv hvy
  have hPQ : ∀ v, v ∈ names P ∨ v ∈ names Q → v ≠ y ∧ v ∈ names (lay (j + 1)) := by
    intro v hv
    have hcut' : lay (j + 1) = P ++ [(k, y)] ++ Q := by
      rw [hy]
      simp
    obtain ⟨hP, hQ⟩ := (hl.cut_disjoint (by omega) hcut').1 y (by simp)
    refine ⟨?_, (mem_cut hcut').mpr (by tauto)⟩
    rintro rfl
    exact hv.elim hP hQ
  have hbeside : ∀ v, v ∈ names (lay j) → v ∉ names W →
      v ∈ names (below kids P ++ K₁) ∨ v ∈ names (K₂ ++ below kids Q) := by
    intro v hv hW
    have := (mem_cut hcut).mp hv
    tauto
  constructor
  case top => rw [hother h (by omega), hl.top]
  case down =>
    intro i hi
    by_cases hij : i = j
    · have hP : below kids' P = below kids P := below_congr (fun v hv =>
        hkids _ (by omega) (by omega) v (hPQ v (.inl hv)).2 (hPQ v (.inl hv)).1)
      have hQ : below kids' Q = below kids Q := below_congr (fun v hv =>
        hkids _ (by omega) (by omega) v (hPQ v (.inr hv)).2 (hPQ v (.inr hv)).1)
      rw [hij, Function.update_self, hother (j + 1) (by omega), hy, below_append, hP]
      show _ = _ ++ (kids' y ++ below kids' Q)
      rw [hQ, hK']
      simp only [List.append_assoc]
    · rw [hother i hij]
      by_cases hij' : i + 1 = j
      · rw [hij', Function.update_self, hl.below_rewritten hr hjh hcut hyj, ← hij', ← hl.down i hi]
      · rw [hother (i + 1) hij', hl.down i hi]
        refine (below_congr (fun v hv => hkids (i + 1) (by omega) hij' v hv ?_)).symm
        rintro rfl
        exact hij (by have := hyi (i + 1) (by omega) hv; omega)
  case leaf =>
    intro v hv
    by_cases h0 : (0 : Nat) = j
    · rw [h0, Function.update_self] at hv
      exact hl.rewritten_leaf hr hjh hcut hyj h0.symm hv
    · rw [hother 0 h0] at hv
      rw [hkids 0 (by omega) h0 v hv, hl.leaf v hv]
      rintro rfl
      exact absurd (hyi 0 (by omega) hv) (by omega)
  case nodup =>
    intro i hi
    by_cases hij : i = j
    · rw [hij, Function.update_self]
      exact hl.rewritten_nodup hr hjh hcut
    · rw [hother i hij]
      exact hl.nodup i hi
  case apart =>
    intro i i' hi hi' v hv hv'
    by_cases hij : i = j
    · by_cases hij' : i' = j
      · rw [hij, hij']
      · rw [hij, Function.update_self] at hv
        rw [hother i' hij'] at hv'
        exact absurd hv (hl.rewritten_apart hr hjh hcut hi' hij' hv')
    · rw [hother i hij] at hv
      by_cases hij' : i' = j
      · rw [hij', Function.update_self] at hv'
        exact absurd hv' (hl.rewritten_apart hr hjh hcut hi hij hv)
      · rw [hother i' hij'] at hv'
        exact hl.apart i i' hi hi' v hv hv'
  case parent =>
    intro i hi v hv u hu
    by_cases hij : i = j
    · -- the children of layer `j + 1`: those of `y`, and the others
      rw [hij, hother (j + 1) (by omega)] at hv
      by_cases hvy : v = y
      · rw [hvy, hK', mem_rewritten] at hu
        rcases hu with hu | hu
        · rw [hvy]
          exact hr.hung u hu
        · have hbes : u ∈ names (below kids P ++ K₁) ∨ u ∈ names (K₂ ++ below kids Q) := by
            simp only [names, List.map_append, List.mem_append]
            tauto
          have huy : u ∈ names (kids y) := by
            rw [hK, mem_rewritten]
            tauto
          rw [hl.par_beside hr hjh hcut hbes, hvy]
          exact hl.parent j hj y hymem u huy
      · rw [hkids (j + 1) (by omega) (by omega) v hv hvy] at hu
        have hpar := hl.parent j hj v hv u hu
        have hW : u ∉ names W := by
          intro hmem
          have huy : u ∈ names (kids y) := by
            rw [hK, mem_rewritten]
            exact .inl hmem
          exact hvy (hpar.symm.trans (hl.parent j hj y hymem u huy))
        rw [hl.par_beside hr hjh hcut (hbeside u (hl.kid_mem hj hv hu) hW), hpar]
    · by_cases hij' : i + 1 = j
      · rw [hij', Function.update_self] at hv
        rcases mem_rewritten.mp hv with hmem | hmem
        · exact hr.adopted v hmem u hu
        · have hvj : v ∈ names (lay (i + 1)) := by
            rw [hij', mem_cut hcut]
            tauto
          refine hl.parent_off hr hjh hcut hi hij hvj ?_ (fun _ => ⟨hyj, hmem⟩) hu
          rintro rfl
          exact hyj (hij' ▸ hvj)
      · rw [hother (i + 1) hij'] at hv
        refine hl.parent_off hr hjh hcut hi hij hv ?_ (fun h => absurd h hij') hu
        rintro rfl
        exact hij (by have := hyi (i + 1) (by omega) hv; omega)

/-- Where an entry is, once there is a new root above the window. -/
theorem mem_grown {e : κ × ν} (hi : i ≤ h + 1)
    (he : e ∈ Function.update (Function.update lay h W') (h + 1) [(k, y)] i) :
    (i < h ∧ e ∈ lay i) ∨ (i = h ∧ e ∈ W') ∨ (i = h + 1 ∧ e = (k, y)) := by
  by_cases h1 : i = h + 1
  · rw [h1, Function.update_self] at he
    exact .inr (.inr ⟨h1, List.mem_singleton.mp he⟩)
  · rw [Function.update_of_ne h1] at he
    by_cases h2 : i = h
    · rw [h2, Function.update_self] at he
      exact .inr (.inl ⟨h2, he⟩)
    · rw [Function.update_of_ne h2] at he
      exact .inl ⟨by omega, he⟩

/-- **A new root** above a window that takes the place of the old one. -/
theorem grow (hl : Layered kids par root h lay) (hnew : ∀ i, i ≤ h → y ∉ names (lay i))
    (hy : y ∉ names W') (hK' : kids' y = W')
    (hr : Rewrites kids kids' par par' h lay y (lay h) W') :
    Layered kids' par' y (h + 1)
      (Function.update (Function.update lay h W') (h + 1) [(k, y)]) := by
  have hcut : lay h = [] ++ lay h ++ [] := by simp
  have hW : W' = [] ++ W' ++ [] := by simp
  have hold : ∀ i, i < h → (Function.update (Function.update lay h W') (h + 1) [(k, y)]) i
      = lay i := by
    intro i hi
    rw [Function.update_of_ne (by omega), Function.update_of_ne (by omega)]
  have htop : (Function.update (Function.update lay h W') (h + 1) [(k, y)]) (h + 1) = [(k, y)] :=
    Function.update_self ..
  have hwin : (Function.update (Function.update lay h W') (h + 1) [(k, y)]) h = W' := by
    rw [Function.update_of_ne (by omega), Function.update_self]
  have hne : ∀ i, i ≤ h → ∀ v ∈ names (lay i), v ≠ y := by
    rintro i hi v hv rfl
    exact hnew i hi hv
  constructor
  case top => rw [htop]; rfl
  case down =>
    intro i hi
    by_cases hih : i = h
    · rw [hih, hwin, htop]
      show W' = kids' y ++ []
      rw [hK', List.append_nil]
    · rw [hold i (by omega)]
      by_cases hih' : i + 1 = h
      · rw [hih', hwin, hW, hl.below_rewritten hr (Nat.le_refl _) hcut (hnew h (Nat.le_refl _)), ← hih',
          ← hl.down i (by omega)]
      · rw [hold (i + 1) (by omega), hl.down i (by omega)]
        refine (below_congr (fun v hv => ?_)).symm
        exact hl.kids_off hr (Nat.le_refl _) hcut (by omega) hih' hv (hne (i + 1) (by omega) v hv)
  case leaf =>
    intro v hv
    by_cases h0 : h = 0
    · have hwin0 := hwin
      rw [h0] at hwin0 hv
      rw [hwin0, hW] at hv
      exact hl.rewritten_leaf hr (Nat.le_refl _) hcut (hnew h (Nat.le_refl _)) h0 hv
    · rw [hold 0 (by omega)] at hv
      rw [hl.kids_off hr (Nat.le_refl _) hcut (by omega) (Ne.symm h0) hv (hne 0 (by omega) v hv), hl.leaf v hv]
  case nodup =>
    intro i hi
    rcases Nat.lt_trichotomy i h with hih | hih | hih
    · rw [hold i hih]
      exact hl.nodup i (by omega)
    · rw [hih, hwin]
      exact hr.nodup
    · have : i = h + 1 := by omega
      rw [this, htop]
      exact List.nodup_singleton _
  case apart =>
    -- a node is in an old layer, in the window, or the new root
    have hwhere : ∀ i, i ≤ h + 1 → ∀ v,
        v ∈ names ((Function.update (Function.update lay h W') (h + 1) [(k, y)]) i) →
        (i < h ∧ v ∈ names (lay i)) ∨ (i = h ∧ v ∈ names W') ∨ (i = h + 1 ∧ v = y) := by
      intro i hi v hv
      obtain ⟨e, he, rfl⟩ := List.mem_map.mp hv
      rcases mem_grown hi he with ⟨h1, h2⟩ | ⟨h1, h2⟩ | ⟨h1, rfl⟩
      · exact .inl ⟨h1, List.mem_map_of_mem h2⟩
      · exact .inr (.inl ⟨h1, List.mem_map_of_mem h2⟩)
      · exact .inr (.inr ⟨h1, rfl⟩)
    have hwindow : ∀ i, i < h → ∀ v ∈ names (lay i), v ∉ names W' := by
      intro i hi v hv
      have := hl.rewritten_apart hr (Nat.le_refl _) hcut (by omega) (by omega) hv
      rwa [← hW] at this
    intro i i' hi hi' v hv hv'
    rcases hwhere i hi v hv with ⟨h1, h2⟩ | ⟨h1, h2⟩ | ⟨h1, h2⟩ <;>
      rcases hwhere i' hi' v hv' with ⟨h3, h4⟩ | ⟨h3, h4⟩ | ⟨h3, h4⟩
    · exact hl.apart i i' (by omega) (by omega) v h2 h4
    · exact absurd h4 (hwindow i h1 v h2)
    · exact absurd h4 (hne i (by omega) v h2)
    · exact absurd h2 (hwindow i' h3 v h4)
    · omega
    · exact absurd h2 (h4 ▸ hy)
    · exact absurd h2 (hne i' (by omega) v h4)
    · exact absurd h4 (h2 ▸ hy)
    · omega
  case parent =>
    intro i hi v hv u hu
    rcases Nat.lt_trichotomy (i + 1) h with hih | hih | hih
    · rw [hold (i + 1) hih] at hv
      exact hl.parent_off hr (Nat.le_refl _) hcut (by omega) (by omega) hv (hne (i + 1) (by omega) v hv)
        (fun heq => by omega) hu
    · rw [hih, hwin] at hv
      exact hr.adopted v hv u hu
    · have : i = h := by omega
      rw [this, htop] at hv
      rw [List.mem_singleton.mp hv, hK'] at hu
      rw [List.mem_singleton.mp hv]
      exact hr.hung u hu

/-- **A root with one child is given up.** -/
theorem collapse (hl : Layered kids par root (h + 1) lay) (hK : kids root = [(k, x)])
    (hkids : ∀ i, i ≤ h → ∀ v ∈ names (lay i), kids' v = kids v)
    (hpar : ∀ i, i < h → ∀ v ∈ names (lay i), par' v = par v) :
    Layered kids' par' x h lay := by
  have htop : lay h = [(k, x)] := by
    obtain ⟨kr, hr⟩ := hl.top_eq
    rw [hl.down h (by omega), hr, below_singleton, hK]
  constructor
  case top => rw [htop]; rfl
  case down =>
    intro i hi
    rw [hl.down i (by omega)]
    exact (below_congr (hkids (i + 1) (by omega))).symm
  case leaf =>
    intro v hv
    rw [hkids 0 (by omega) v hv, hl.leaf v hv]
  case nodup => exact fun i hi => hl.nodup i (by omega)
  case apart => exact fun i i' hi hi' => hl.apart i i' (by omega) (by omega)
  case parent =>
    intro i hi v hv u hu
    rw [hkids (i + 1) (by omega) v hv] at hu
    rw [hpar i hi u (hl.kid_mem (by omega) hv hu)]
    exact hl.parent i (by omega) v hv u hu

end Layered

end Rucbase.Lib
