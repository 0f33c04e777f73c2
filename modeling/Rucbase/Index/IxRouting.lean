import Rucbase.Index.IxUpdates

/-!
# From the root to a leaf

`FindLeafPage`. `InternalLookup` takes the entry at `upper_bound(key)`, which is the first one
with a greater key: where that is slot 0 it is the right child, everywhere else the right child
is the one before. So the search is right as long as it stays at slot 0, that is, along the left
edge of the tree (`Leftward`), and wrong as soon as some key on its way is not greater.
-/

namespace Rucbase

open Lib

namespace IxCore

variable {κ : Type}

/-- The first key of the leaf `w` is not greater than `k`. -/
def Reaches [LinearOrder κ] (c : IxCore κ) (k : κ) (w : Int) : Prop := ∃ e,
    (c.cont w).head? = some e ∧ e.1 ≤ k

/-- `x` is the right-most leaf whose first key is not greater than `k`, or the left-most leaf if
there is none. -/
def Covers [LinearOrder κ] (c : IxCore κ) (leaves : List Int) (k : κ) (x : Int) : Prop :=
  ∃ A B, leaves = A ++ x :: B ∧ (∀ w ∈ B, ¬ c.Reaches k w) ∧ (c.Reaches k x ∨ A = [])

/-- The nodes a search for `k` from `y` on comes to. -/
inductive Visited [LinearOrder κ] (c : IxCore κ) (k : κ) (y : Int) : Int → Prop where
  | start : Visited c k y y
  | child {x : Int} {n : IxNode κ} : Visited c k y x → c.pages x = some n → n.isLeaf = false →
      Visited c k y (n.internalLookup k)

/-- A search for `k` from `y` on only takes first children. -/
def Leftward [LinearOrder κ] (c : IxCore κ) (k : κ) (y : Int) : Prop :=
  ∀ x n, Visited c k y x → c.pages x = some n → n.isLeaf = false → n.upperBound k = 0

/-- The left-most leaf under a node of layer `j`. -/
def leftmost [Inhabited κ] (c : IxCore κ) : Nat → Int → Int
  | 0, x => x
  | j + 1, x => c.leftmost j ((c.node x).rids 0).pageNo

variable {c : IxCore κ} {h j : Nat} {lay : Nat → List (κ × Int)} {x y : Int} {n : IxNode κ} {k : κ}

/-- A search that goes on with a child. -/
theorem Visited.head [LinearOrder κ] (hn : c.pages y = some n) (hl : n.isLeaf = false)
    (hv : Visited c k (n.internalLookup k) x) : Visited c k y x := by
  induction hv with
  | start => exact .child .start hn hl
  | child _ hx hxl ih => exact .child ih hx hxl

/-- A tree read from above: what a search depends on. -/
structure Shape (c : IxCore κ) (h : Nat) (lay : Nat → List (κ × Int)) : Prop where
  layered : Layered c.kids c.par c.hdr.rootPage h lay
  kind : ∀ j, j ≤ h → ∀ x ∈ names (lay j), ∃ v, c.view x = some v ∧ v.isLeaf = decide (j = 0)
  kids : ∀ j, j < h → ∀ x ∈ names (lay (j + 1)), c.kids x ≠ []

namespace Shape

variable (hs : Shape c h lay)

include hs

/-- An inner node as a page. -/
theorem inner (hj : j < h) (hx : x ∈ names (lay (j + 1))) : ∃ n, c.pages x = some n
    ∧ n.isLeaf = false ∧ 0 < n.numKey ∧ c.kids x = n.entries.map fun e => (e.1, e.2.pageNo) := by
  obtain ⟨v, hv, hl⟩ := hs.kind (j + 1) (by omega) x hx
  obtain ⟨n, hn, rfl⟩ := pages_of_view hv
  have hl' : n.isLeaf = false := by
    have : n.view.isLeaf = false := by
      rw [hl]
      simp
    exact this
  have hkids : c.kids x = n.entries.map fun e => (e.1, e.2.pageNo) := by
    rw [kids_of_view hv]
    exact NodeView.kids_of_inner hl'
  refine ⟨n, hn, hl', ?_, hkids⟩
  have hne := hs.kids j hj x hx
  rw [hkids] at hne
  rcases Nat.eq_zero_or_pos n.numKey with h0 | hpos
  · refine absurd ?_ hne
    rw [List.map_eq_nil_iff, ← List.length_eq_zero_iff, IxNode.length_entries, h0]
  · exact hpos

theorem leaf (hx : x ∈ names (lay 0)) : ∃ n, c.pages x = some n ∧ n.isLeaf = true := by
  obtain ⟨v, hv, hl⟩ := hs.kind 0 (by omega) x hx
  obtain ⟨n, hn, rfl⟩ := pages_of_view hv
  exact ⟨n, hn, hl⟩

/-- The first child of an inner node. -/
theorem first_kid (hj : j < h) (hx : x ∈ names (lay (j + 1))) : ∃ n k₀ K, c.pages x = some n
    ∧ n.isLeaf = false ∧ c.kids x = (k₀, (n.rids 0).pageNo) :: K ∧ k₀ = n.keys 0
    ∧ (n.rids 0).pageNo ∈ names (lay j) := by
  obtain ⟨n, hn, hl, hpos, hkids⟩ := hs.inner hj hx
  have hfirst := IxNode.entries_head hpos
  cases hent : n.entries with
  | nil =>
      rw [hent] at hfirst
      exact absurd hfirst (by simp)
  | cons e l =>
      rw [hent, List.head?_cons, Option.some.injEq] at hfirst
      have hk : c.kids x = (n.keys 0, (n.rids 0).pageNo) :: l.map fun e => (e.1, e.2.pageNo) := by
        rw [hkids, hent, hfirst]
        rfl
      exact ⟨n, _, _, hn, hl, hk, rfl, hs.layered.kid_mem hj hx (by rw [hk]; simp)⟩

/-- The left-most leaf of the tree is the first. -/
theorem leftmost_root [Inhabited κ] : (names (lay 0)).head? = some (c.leftmost h c.hdr.rootPage) := by
  -- in every layer, the left-most leaf under the first node is the same
  have hall : ∀ i, i ≤ h → ∃ w, (names (lay i)).head? = some w
      ∧ c.leftmost i w = c.leftmost h c.hdr.rootPage := by
    intro i hi
    obtain ⟨d, hd⟩ : ∃ d, i + d = h := ⟨h - i, by omega⟩
    induction d generalizing i with
    | zero =>
        obtain rfl : i = h := by omega
        exact ⟨_, by rw [hs.layered.top]; rfl, rfl⟩
    | succ d ih =>
        obtain ⟨w, hw, hleft⟩ := ih (i + 1) (by omega) (by omega)
        have hwmem : w ∈ names (lay (i + 1)) := List.mem_of_mem_head? hw
        obtain ⟨n, k₀, K, hn, _, hkids, _, _⟩ := hs.first_kid (by omega) hwmem
        refine ⟨(n.rids 0).pageNo, ?_, ?_⟩
        · rw [hs.layered.down i (by omega)]
          cases hl : lay (i + 1) with
          | nil =>
              rw [hl] at hw
              exact absurd hw (by simp)
          | cons e l =>
              rw [hl, names, List.map_cons, List.head?_cons, Option.some.injEq] at hw
              rw [Lib.below, List.flatMap_cons, hw, hkids]
              rfl
        · rw [← hleft]
          show _ = c.leftmost i ((c.node w).rids 0).pageNo
          rw [node_of_some hn]
  obtain ⟨w, hw, hleft⟩ := hall 0 (Nat.zero_le _)
  rw [hw, ← hleft]
  rfl

theorem leftmost_mem [Inhabited κ] (hj : j ≤ h) (hx : x ∈ names (lay j)) : c.leftmost j x ∈ names
    (lay 0) := by
  induction j generalizing x with
  | zero => exact hx
  | succ j ih =>
      obtain ⟨n, _, _, hn, _, _, _, hmem⟩ := hs.first_kid (by omega) hx
      have := ih (by omega) hmem
      show c.leftmost j ((c.node x).rids 0).pageNo ∈ _
      rwa [node_of_some hn]

/-- What the left-most leaf holds is under the node. -/
theorem cont_leftmost [Inhabited κ] (hj : j ≤ h) (hx : x ∈ names (lay j)) :
    ∀ e ∈ c.cont (c.leftmost j x), e ∈ c.under j x := by
  induction j generalizing x with
  | zero => exact fun e he => he
  | succ j ih =>
      obtain ⟨n, k₀, K, hn, _, hkids, _, hmem⟩ := hs.first_kid (by omega) hx
      intro e he
      have he' : e ∈ c.cont (c.leftmost j (n.rids 0).pageNo) := by
        have : c.leftmost (j + 1) x = c.leftmost j (n.rids 0).pageNo := by
          show c.leftmost j ((c.node x).rids 0).pageNo = _
          rw [node_of_some hn]
        rwa [← this]
      show e ∈ (c.kids x).flatMap _
      rw [hkids, List.flatMap_cons]
      exact List.mem_append_left _ (ih (by omega) hmem e he')

end Shape

theorem Tree.shape (ht : Tree c h lay) (hs : Sizes c h lay []) : Shape c h lay := by
  refine ⟨ht.layered, ht.kind, fun j hj x hx hnil => ?_⟩
  have := ht.two_kids hs hj hx
  rw [hnil] at this
  simp at this

/-! ## The documented convention -/

variable [LinearOrder κ]

/-- A tree in which the keys of inner nodes are the smallest keys under their children. -/
structure MinKeyed (c : IxCore κ) (h : Nat) (lay : Nat → List (κ × Int)) : Prop where
  shape : Shape c h lay
  sorted : Increasing (c.stored lay)
  mins : ∀ j, j < h → ∀ y ∈ names (lay (j + 1)), ∀ e ∈ c.kids y,
    (∃ a ∈ c.under j e.2, a.1 = e.1) ∧ ∀ a ∈ c.under j e.2, e.1 ≤ a.1

namespace MinKeyed

variable (hm : MinKeyed c h lay)

include hm

theorem under_sorted (hj : j ≤ h) (hx : x ∈ names (lay j)) : Increasing (c.under j x) :=
  hm.sorted.sublist (under_sublist hm.shape.layered hj hx)

/-- What is under a child comes before what is under a later one. -/
theorem kids_apart (hj : j < h) (hy : y ∈ names (lay (j + 1))) :
    (c.kids y).Pairwise fun e f => ∀ a ∈ c.under j e.2, ∀ b ∈ c.under j f.2, a.1 < b.1 :=
  (List.pairwise_flatMap.mp (hm.under_sorted (j := j + 1) (by omega) hy)).2

/-- The keys of an inner node increase. -/
theorem entries_sorted (hj : j < h) (hy : y ∈ names (lay (j + 1)))
    (hkids : c.kids y = n.entries.map fun e => (e.1, e.2.pageNo)) : Increasing n.entries := by
  have hkeys : (c.kids y).Pairwise fun e f => e.1 < f.1 := by
    refine (hm.kids_apart hj hy).imp_of_mem (fun {e f} he hf hef => ?_)
    obtain ⟨⟨a, ha, hae⟩, _⟩ := hm.mins j hj y hy e he
    obtain ⟨⟨b, hb, hbf⟩, _⟩ := hm.mins j hj y hy f hf
    rw [← hae, ← hbf]
    exact hef a ha b hb
  rw [hkids, List.pairwise_map] at hkeys
  exact hkeys

/-- Only a root is a leaf without entries. -/
theorem leaf_ne_nil (hh : 0 < h) (hx : x ∈ names (lay 0)) : ∃ a, a ∈ c.cont x := by
  obtain ⟨P, ky, Q, K₁, kx, K₂, hP, hkids⟩ := hm.shape.layered.locate hh hx
  obtain ⟨⟨a, ha, _⟩, _⟩ := hm.mins 0 hh (c.par x) (by rw [hP]; simp) (kx, x) (by rw [hkids]; simp)
  exact ⟨a, ha⟩

/-- A search for a key below everything takes first children, and stays in the tree. -/
theorem visited_low (hj : j ≤ h) (hy : y ∈ names (lay j)) (hlow : ∀ a ∈ c.under j y, k < a.1)
    (hv : Visited c k y x) : ∃ i, i ≤ j ∧ x ∈ names (lay i) ∧ (∀ a ∈ c.under i x, k < a.1)
      ∧ ∀ n, c.pages x = some n → n.isLeaf = false → n.upperBound k = 0 ∧ 0 < n.numKey := by
  have hzero : ∀ i, i < j → ∀ w ∈ names (lay (i + 1)), (∀ a ∈ c.under (i + 1) w, k < a.1) →
      ∀ n, c.pages w = some n → n.upperBound k = 0 ∧ 0 < n.numKey := by
    intro i hi w hw hwlow n hn
    obtain ⟨n', hn', hl, hpos, hkids⟩ := hm.shape.inner (by omega) hw
    obtain rfl : n = n' := Option.some.inj (hn.symm.trans hn')
    refine ⟨?_, hpos⟩
    obtain ⟨_, h2, _⟩ := IxNode.upperBound_spec (hm.entries_sorted (by omega) hw hkids) k
    by_contra hne
    have hle := h2 0 (by omega)
    have hmem : (n.keys 0, (n.rids 0).pageNo) ∈ c.kids w := by
      rw [hkids]
      exact List.mem_map.mpr ⟨_, IxNode.mem_entries.mpr ⟨0, hpos, rfl⟩, rfl⟩
    obtain ⟨⟨a, ha, hae⟩, _⟩ := hm.mins i (by omega) w hw _ hmem
    have := hwlow a (List.mem_flatMap.mpr ⟨_, hmem, ha⟩)
    rw [hae] at this
    exact absurd hle (not_le.mpr this)
  -- no leaf is an inner node
  have hleaf : ∀ w n, w ∈ names (lay 0) → c.pages w = some n → n.isLeaf ≠ false := by
    intro w n hw hn hl
    obtain ⟨n', hn', hl'⟩ := hm.shape.leaf hw
    obtain rfl : n = n' := Option.some.inj (hn.symm.trans hn')
    rw [hl] at hl'
    exact absurd hl' (by simp)
  have hnode : ∀ i, i ≤ j → ∀ w ∈ names (lay i), (∀ a ∈ c.under i w, k < a.1) →
      ∀ n, c.pages w = some n → n.isLeaf = false → n.upperBound k = 0 ∧ 0 < n.numKey := by
    intro i hi w hw hwlow n hn hl
    cases i with
    | zero => exact absurd hl (hleaf w n hw hn)
    | succ i => exact hzero i (by omega) w hw hwlow n hn
  induction hv with
  | start => exact ⟨j, Nat.le_refl _, hy, hlow, hnode j (Nat.le_refl _) y hy hlow⟩
  | @child x n _ hn hl ih =>
      obtain ⟨i, hi, hx, hxlow, hub⟩ := ih
      cases i with
      | zero => exact absurd hl (hleaf x n hx hn)
      | succ i =>
          obtain ⟨n', k₀, K, hn', _, hkids, _, hmem⟩ := hm.shape.first_kid (by omega) hx
          obtain rfl : n = n' := Option.some.inj (hn.symm.trans hn')
          have hlook : n.internalLookup k = (n.rids 0).pageNo := by
            unfold IxNode.internalLookup
            rw [(hub n hn hl).1]
          rw [hlook]
          have hchild : ∀ a ∈ c.under i (n.rids 0).pageNo, k < a.1 := by
            intro a ha
            refine hxlow a ?_
            show a ∈ (c.kids x).flatMap _
            rw [hkids, List.flatMap_cons]
            exact List.mem_append_left _ ha
          exact ⟨i, by omega, hmem, hchild, hnode i (by omega) _ hmem hchild⟩

theorem leftward_low (hj : j ≤ h) (hy : y ∈ names (lay j)) (hlow : ∀ a ∈ c.under j y, k < a.1) :
    Leftward c k y := by
  intro x n hv hn hl
  obtain ⟨_, _, _, _, hub⟩ := hm.visited_low hj hy hlow hv
  exact (hub n hn hl).1

end MinKeyed

end IxCore

namespace IxIndexHandle

open IxCore

variable {κ : Type} {c : IxCore κ} {h j fuel : Nat}
  {lay : Nat → List (κ × Int)} {x y : Int} {n : IxNode κ} {k : κ} {R : Int → IxCore κ → Prop}

theorem yields_descend_leaf [LinearOrder κ] [Inhabited κ] (hn : c.pages y = some n)
    (hl : n.isLeaf = true) (hR : R y c) :
    Yields (descend k (fuel + 1) y) c R := by
  unfold descend
  refine Yields.get_bind (fun s hs => ?_)
  rw [hs.node, node_of_some hn, if_pos hl]
  exact Yields.pure hR

theorem yields_descend_inner [LinearOrder κ] [Inhabited κ] (hn : c.pages y = some n) (hl : n.isLeaf = false)
    (hchild : (c.pages (n.internalLookup k)).isSome)
    (hrest : Yields (descend k fuel (n.internalLookup k)) c R) :
    Yields (descend k (fuel + 1) y) c R := by
  unfold descend
  refine Yields.get_bind (fun s hs => ?_)
  rw [hs.node, node_of_some hn, if_neg (by rw [hl]; simp)]
  refine yields_unpinPage.then_do ((yields_fetchNode (pages_of_isSome hchild)).then_at ?_)
  exact hrest

/-- The search along the left edge. -/
theorem yields_descend_left [LinearOrder κ] [Inhabited κ] (hs : Shape c h lay) (hj : j ≤ h)
    (hy : y ∈ names (lay j))
    (hleft : Leftward c k y) (hfuel : j < fuel) :
    Yields (descend k fuel y) c (fun a c' => a = c.leftmost j y ∧ c' = c) := by
  induction fuel generalizing j y with
  | zero => omega
  | succ fuel ih =>
      cases j with
      | zero =>
          obtain ⟨n, hn, hl⟩ := hs.leaf hy
          exact yields_descend_leaf hn hl ⟨rfl, rfl⟩
      | succ j =>
          obtain ⟨n, k₀, K, hn, hl, hkids, _, hmem⟩ := hs.first_kid (by omega) hy
          have hlook : n.internalLookup k = (n.rids 0).pageNo := by
            unfold IxNode.internalLookup
            rw [hleft y n .start hn hl]
          have hstep : c.leftmost (j + 1) y = c.leftmost j (n.internalLookup k) := by
            rw [hlook]
            show c.leftmost j ((c.node y).rids 0).pageNo = _
            rw [node_of_some hn]
          rw [← hlook] at hmem
          obtain ⟨v, hv, _⟩ := hs.kind j (by omega) _ hmem
          obtain ⟨m, hm, _⟩ := pages_of_view hv
          refine yields_descend_inner hn hl (by rw [hm]; rfl) ?_
          rw [hstep]
          exact ih (by omega) hmem (fun x m' hx => hleft x m' (.head hn hl hx)) (by omega)

/-- **`FindLeafPage` along the left edge** finds the first leaf. -/
theorem yields_findLeafPage_left [LinearOrder κ] [Inhabited κ] (hs : Shape c h lay)
    (hleft : Leftward c k c.hdr.rootPage)
    (hfuel : h < fuel) : Yields (findLeafPage fuel k) c
      (fun a c' => a = c.leftmost h c.hdr.rootPage ∧ c' = c) := by
  obtain ⟨v, hv, _⟩ := hs.kind h (Nat.le_refl _) _ hs.layered.root_mem
  obtain ⟨n, hn, _⟩ := pages_of_view hv
  unfold findLeafPage
  refine Yields.get_bind (fun s hsat => ?_)
  rw [hsat.fileHdr]
  refine (yields_fetchNode hn).then_at ?_
  exact yields_descend_left hs (Nat.le_refl _) hs.layered.root_mem hleft hfuel

/-! ## Where the search is right -/

/-- A handle with a given core. -/
def ofCore (c : IxCore κ) : IxIndexHandle κ := ⟨c.hdr, ⟨c.pages, [], c.nextPageNo, none⟩, [], []⟩

theorem ofCore_at : (ofCore c).At c := ⟨rfl, rfl⟩

/-- A call has one outcome. -/
theorem Yields.both {α : Type} {m : IxM κ α} {P Q : α → IxCore κ → Prop} (h₁ : Yields m c P)
    (h₂ : Yields m c Q) : ∃ a c', P a c' ∧ Q a c' := by
  obtain ⟨a, t, c₁, hrun, ht, hP, _⟩ := h₁ _ ofCore_at
  obtain ⟨a', t', c₂, hrun', ht', hQ, _⟩ := h₂ _ ofCore_at
  rw [hrun, EStateM.Result.ok.injEq] at hrun'
  obtain ⟨rfl, rfl⟩ := hrun'
  obtain rfl : c₁ = c₂ := ht.1.symm.trans ht'.1
  exact ⟨a, c₁, hP, hQ⟩

variable [LinearOrder κ] [Inhabited κ]

/-- `FindLeafPage(k)` returns the leaf that covers `k`, and never looks at a slot that is not in
use. -/
structure RoutesRight (c : IxCore κ) (lay : Nat → List (κ × Int)) (k : κ) : Prop where
  found : ∃ x, Covers c (names (lay 0)) k x ∧ ∃ rounds, ∀ fuel, rounds ≤ fuel →
    Yields (findLeafPage fuel k) c (fun a c' => a = x ∧ c' = c)
  slots : ∀ x n, Visited c k c.hdr.rootPage x → c.pages x = some n → n.isLeaf = false →
    n.upperBound k < n.numKey

/-- A key below everything is searched in the first leaf. -/
theorem routesRight_low (hm : MinKeyed c h lay) (hlow : ∀ e ∈ c.stored lay, k < e.1) :
    RoutesRight c lay k := by
  have hroot := under_root hm.shape.layered
  have hlow' : ∀ a ∈ c.under h c.hdr.rootPage, k < a.1 := by rwa [hroot]
  have hleft := hm.leftward_low (Nat.le_refl _) hm.shape.layered.root_mem hlow'
  constructor
  · refine ⟨c.leftmost h c.hdr.rootPage, ?_, h + 1, fun fuel hfuel =>
      yields_findLeafPage_left hm.shape hleft (by omega)⟩
    have hhead := hm.shape.leftmost_root
    cases hl : lay 0 with
    | nil =>
        rw [hl] at hhead
        exact absurd hhead (by simp)
    | cons e B =>
        rw [hl, names, List.map_cons, List.head?_cons, Option.some.injEq] at hhead
        refine ⟨[], names B, by rw [← hhead]; rfl, fun w hw => ?_, .inr rfl⟩
        obtain ⟨f, hf, rfl⟩ := List.mem_map.mp hw
        rintro ⟨a, ha, hle⟩
        have hmem : a ∈ c.stored lay := by
          unfold stored
          rw [hl, List.flatMap_cons]
          refine List.mem_append_right _ (List.mem_flatMap.mpr ⟨f, hf, List.mem_of_mem_head? ha⟩)
        exact absurd hle (not_le.mpr (hlow a hmem))
  · intro x n hv hn hl
    obtain ⟨_, _, _, _, hub⟩ := hm.visited_low (Nat.le_refl _) hm.shape.layered.root_mem hlow' hv
    obtain ⟨h0, hpos⟩ := hub n hn hl
    omega

theorem routesRight_leaf (hm : MinKeyed c 0 lay) : RoutesRight c lay k := by
  obtain ⟨k₀, htop⟩ := hm.shape.layered.top_eq
  obtain ⟨n, hn, hl⟩ := hm.shape.leaf hm.shape.layered.root_mem
  have hno : ∀ x m, Visited c k c.hdr.rootPage x → c.pages x = some m → m.isLeaf ≠ false := by
    intro x m hv
    induction hv generalizing m with
    | start =>
        intro hm' hml
        obtain rfl : n = m := Option.some.inj (hn.symm.trans hm')
        rw [hl] at hml
        exact absurd hml (by simp)
    | child _ hx hxl ih => exact absurd hxl (ih _ hx)
  refine ⟨⟨c.hdr.rootPage, ⟨[], [], by rw [htop]; rfl, by simp, .inr rfl⟩, 1, fun fuel hfuel => ?_⟩,
    fun x m hv hx hxl => absurd hxl (hno x m hv hx)⟩
  exact yields_findLeafPage_left hm.shape (fun x m hv hx hxl => absurd hxl (hno x m hv hx)) (by omega)

/-- Any other key is searched too far to the right. -/
theorem not_routesRight (hm : MinKeyed c (h + 1) lay) {e : κ × Rid} (he : e ∈ c.stored lay)
    (hle : e.1 ≤ k) : ¬ RoutesRight c lay k := by
  rintro ⟨⟨x, hcovers, rounds, hyields⟩, hslots⟩
  have hroot := hm.shape.layered.root_mem
  obtain ⟨n, hn, hl, hpos, hkids⟩ := hm.shape.inner (Nat.lt_succ_self _) hroot
  have hsorted := hm.entries_sorted (Nat.lt_succ_self _) hroot hkids
  obtain ⟨_, _, hub⟩ := IxNode.upperBound_spec hsorted k
  have hlt := hslots c.hdr.rootPage n .start hn hl
  have hkid : ∀ i, i < n.numKey → (n.keys i, (n.rids i).pageNo) ∈ c.kids c.hdr.rootPage := by
    intro i hi
    rw [hkids]
    exact List.mem_map.mpr ⟨_, IxNode.mem_entries.mpr ⟨i, hi, rfl⟩, rfl⟩
  -- the first key of the root is the smallest of all
  have hfirst : n.keys 0 ≤ k := by
    rw [← under_root hm.shape.layered] at he
    obtain ⟨f, hf, hef⟩ := List.mem_flatMap.mp he
    obtain ⟨g, hg, rfl⟩ := List.mem_map.mp (hkids ▸ hf)
    obtain ⟨i, hi, rfl⟩ := IxNode.mem_entries.mp hg
    have hmin := (hm.mins h (by omega) _ hroot _ hf).2 e hef
    exact (IxNode.keys_le hsorted (Nat.zero_le _) hi).trans (hmin.trans hle)
  have hidx : 0 < n.upperBound k := by
    by_contra h0
    have := hub 0 (by omega) hpos
    exact absurd hfirst (not_le.mpr this)
  -- the child taken holds nothing that is not greater
  have hzmem : n.internalLookup k ∈ names (lay h) :=
    hm.shape.layered.kid_mem (by omega) hroot (List.mem_map_of_mem (hkid _ hlt))
  have hz : ∀ a ∈ c.under h (n.internalLookup k), k < a.1 := by
    intro a ha
    have hmin := (hm.mins h (by omega) _ hroot _ (hkid _ hlt)).2 a ha
    exact lt_of_lt_of_le (hub _ (Nat.le_refl _) hlt) hmin
  have hleft := hm.leftward_low (by omega) hzmem hz
  have hx : x = c.leftmost h (n.internalLookup k) := by
    have hright : Yields (findLeafPage (rounds + h + 2) k) c
        (fun a c' => a = c.leftmost h (n.internalLookup k) ∧ c' = c) := ?_
    · obtain ⟨a, _, ⟨rfl, _⟩, ha, _⟩ := (hyields (rounds + h + 2) (by omega)).both hright
      exact ha
    unfold findLeafPage
    refine Yields.get_bind (fun s hsat => ?_)
    rw [hsat.fileHdr]
    obtain ⟨v, hv, _⟩ := hm.shape.kind h (by omega) _ hzmem
    obtain ⟨m, hm', _⟩ := pages_of_view hv
    refine (yields_fetchNode hn).then_at (yields_descend_inner hn hl (by rw [hm']; rfl) ?_)
    exact yields_descend_left hm.shape (by omega) hzmem hleft (by omega)
  have hxlow : ∀ a ∈ c.cont x, k < a.1 := by
    intro a ha
    rw [hx] at ha
    exact hz a (hm.shape.cont_leftmost (by omega) hzmem a ha)
  obtain ⟨A, B, hcut, _, hreach | hA⟩ := hcovers
  · obtain ⟨a, ha, hak⟩ := hreach
    exact absurd hak (not_le.mpr (hxlow a (List.mem_of_mem_head? ha)))
  · -- the first leaf holds the smallest key
    obtain ⟨n', k₀, K, hn', _, hkids', hk₀, hmem⟩ := hm.shape.first_kid (Nat.lt_succ_self _) hroot
    obtain rfl : n = n' := Option.some.inj (hn.symm.trans hn')
    have hhead := hm.shape.leftmost_root
    rw [hcut, hA, List.nil_append, List.head?_cons, Option.some.injEq] at hhead
    have hstep : c.leftmost (h + 1) c.hdr.rootPage = c.leftmost h (n.rids 0).pageNo := by
      show c.leftmost h ((c.node c.hdr.rootPage).rids 0).pageNo = _
      rw [node_of_some hn]
    obtain ⟨a, ha⟩ := hm.leaf_ne_nil (Nat.succ_pos _) (x := x) (by rw [hcut]; simp)
    have h0 : a ∈ c.under h (n.rids 0).pageNo := by
      refine hm.shape.cont_leftmost (by omega) hmem a ?_
      rw [← hstep, ← hhead]
      exact ha
    have h1 : a ∈ c.under h (n.internalLookup k) := by
      refine hm.shape.cont_leftmost (by omega) hzmem a ?_
      rw [← hx]
      exact ha
    have hapart := hm.kids_apart (Nat.lt_succ_self _) hroot
    rw [hkids'] at hapart
    have hzK : (n.keys (n.upperBound k), (n.rids (n.upperBound k)).pageNo) ∈ K := by
      have := hkid _ hlt
      rw [hkids'] at this
      rcases List.mem_cons.mp this with heq | hK
      · have hkeys := IxNode.keys_lt hsorted hidx hlt
        rw [Prod.mk.injEq] at heq
        rw [heq.1, hk₀] at hkeys
        exact absurd hkeys (lt_irrefl _)
      · exact hK
    exact absurd ((List.pairwise_cons.mp hapart).1 _ hzK a h0 a h1) (lt_irrefl _)

/-- **When the search is right**: exactly if the root is a leaf, or the key is smaller than all
that is stored. -/
theorem routesRight_iff (hm : MinKeyed c h lay) :
    RoutesRight c lay k ↔ h = 0 ∨ ∀ e ∈ c.stored lay, k < e.1 := by
  constructor
  · intro hr
    rcases Nat.eq_zero_or_pos h with h0 | hpos
    · exact .inl h0
    · right
      intro e he
      by_contra hle
      obtain ⟨l, rfl⟩ : ∃ l, h = l + 1 := ⟨h - 1, by omega⟩
      exact not_routesRight hm he (not_lt.mp hle) hr
  · rintro (rfl | hlow)
    · exact routesRight_leaf hm
    · exact routesRight_low hm hlow

theorem sampleTwo_minKeyed : MinKeyed sampleTwo 1 layersTwo := by
  refine ⟨sampleTwo_tree.shape sampleTwo_wellFormed.sizes, sampleTwo_wellFormed.sorted, ?_⟩
  intro j hj y hy e he
  obtain rfl : j = 0 := by omega
  obtain rfl : y = 4 := by simpa [layersTwo] using hy
  have he' : e ∈ [((1 : Nat), (2 : Int)), (3, 3)] := he
  obtain rfl | rfl : e = (1, 2) ∨ e = (3, 3) := by simpa using he'
  · exact ⟨⟨(1, ⟨1, 0⟩), by decide, rfl⟩, by decide⟩
  · exact ⟨⟨(3, ⟨2, 0⟩), by decide, rfl⟩, by decide⟩

theorem routesRight_iff_sampleTwo : RoutesRight sampleTwo layersTwo 0 ↔ (1 = 0
    ∨ ∀ e ∈ sampleTwo.stored layersTwo, 0 < e.1) := routesRight_iff sampleTwo_minKeyed

/-- In a tree of two leaves, `1 2` and `3 4 5`, the search for 1 does not end in the first. -/
theorem sampleTwo_not_routesRight : MinKeyed sampleTwo 1 layersTwo
    ∧ ¬ RoutesRight sampleTwo layersTwo 1 :=
  ⟨sampleTwo_minKeyed, not_routesRight (e := (1, ⟨1, 0⟩)) sampleTwo_minKeyed (by decide) (by decide)⟩

end IxIndexHandle

end Rucbase
