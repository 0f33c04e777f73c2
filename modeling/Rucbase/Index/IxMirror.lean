import Rucbase.Index.IxEntries

/-!
# An index as a map

`insert_entry`, `delete_entry` and `GetValue` beside the map they are meant to maintain. A call
returns if it does so for some number of rounds; more rounds do not change what it returns.
`Leftward` searches, the only ones that `FindLeafPage` takes to the right leaf, end in the first
leaf; there each call does to the tree what it is meant to do to the map.
-/

namespace Rucbase

open Lib

namespace IxIndexHandle

variable {κ : Type} [Inhabited κ]

/-! ## More rounds -/

theorem within_insertIntoParent (fuel : Nat) (oldNode : Int) (key : κ) (newNode : Int) :
    Within (insertIntoParent fuel oldNode key newNode)
      (insertIntoParent (fuel + 1) oldNode key newNode) := by
  induction fuel generalizing oldNode key newNode with
  | zero => exact .throw _
  | succ fuel ih =>
      unfold insertIntoParent
      refine .bind .refl (fun s => .ite .refl (.bind .refl fun parent => .bind .refl fun idx => ?_))
      refine .bind .refl fun _ => .bind .refl fun _ => .bind .refl fun _ => .bind (.onlyIf ?_) (fun _ => .refl)
      exact .bind .refl fun newParent => .bind .refl fun _ => .bind (ih _ _ _) fun _ => .refl

theorem within_coalesce {again again' : Int → IxM κ Bool} (h : ∀ p, Within (again p) (again' p))
    (neighbor node parent : Int) (index : Nat) :
    Within (coalesce again neighbor node parent index)
      (coalesce again' neighbor node parent index) := by
  unfold coalesce
  refine .bind .refl fun s => .bind .refl fun _ => .bind .refl fun _ => .bind .refl fun _ => ?_
  refine .bind .refl fun _ => .bind .refl fun _ => .bind .refl fun _ => .bind .refl fun _ => ?_
  exact .bind .refl fun _ => .bind .refl fun _ => h parent

variable [LinearOrder κ]

theorem within_maintainParent (fuel : Nat) (curr : Int) :
    Within (maintainParent fuel curr : IxM κ Unit) (maintainParent (fuel + 1) curr) := by
  induction fuel generalizing curr with
  | zero => exact .throw _
  | succ fuel ih =>
      unfold maintainParent
      refine .bind .refl (fun s => .onlyIf (.bind .refl fun parent => .bind .refl fun rank => ?_))
      exact .ite .refl (.bind .refl fun _ => .bind .refl fun _ => ih parent)

theorem within_descend (key : κ) (fuel : Nat) (node : Int) :
    Within (descend key fuel node) (descend key (fuel + 1) node) := by
  induction fuel generalizing node with
  | zero => exact .throw _
  | succ fuel ih =>
      unfold descend
      refine .bind .refl (fun s => .ite .refl ?_)
      exact .bind .refl fun _ => .bind .refl fun child => ih child

theorem within_findLeafPage (key : κ) (fuel : Nat) :
    Within (findLeafPage fuel key) (findLeafPage (fuel + 1) key) :=
  .bind .refl fun _ => .bind .refl fun node => within_descend key fuel node

theorem within_insertIntoLeaf (fuel : Nat) (leaf : Int) (key : κ) (value : Rid) :
    Within (insertIntoLeaf fuel leaf key value) (insertIntoLeaf (fuel + 1) leaf key value) := by
  refine .bind .refl fun _ => .bind .refl fun _ => .bind (.onlyIf ?_) (fun _ => .refl)
  refine .bind .refl fun newLeaf => .bind .refl fun _ => ?_
  exact .bind (within_insertIntoParent fuel _ _ _) fun _ => .refl

theorem within_redistribute (fuel : Nat) (neighbor node : Int) (index : Nat) :
    Within (redistribute fuel neighbor node index : IxM κ Unit)
      (redistribute (fuel + 1) neighbor node index) := by
  refine .bind .refl fun s => .ite ?_ ?_
  · refine .bind .refl fun _ => .bind .refl fun _ => ?_
    exact .bind (within_maintainParent fuel _) fun _ => .refl
  · refine .bind .refl fun _ => .bind .refl fun _ => ?_
    exact .bind (within_maintainParent fuel _) fun _ => .refl

theorem within_coalesceOrRedistribute (fuel : Nat) (node : Int) :
    Within (coalesceOrRedistribute fuel node : IxM κ Bool)
      (coalesceOrRedistribute (fuel + 1) node) := by
  induction fuel generalizing node with
  | zero => exact .throw _
  | succ fuel ih =>
      unfold coalesceOrRedistribute
      refine .bind .refl (fun s => .ite .refl (.ite .refl ?_))
      refine .bind .refl fun parent => .bind .refl fun idx => .bind .refl fun neighbor => .ite ?_ ?_
      · exact .bind (within_redistribute fuel _ _ _) fun _ => .refl
      · exact within_coalesce ih _ _ _ _

theorem within_removeFromLeaf (fuel : Nat) (leaf : Int) (key : κ) :
    Within (removeFromLeaf fuel leaf key) (removeFromLeaf (fuel + 1) leaf key) := by
  refine .bind .refl fun s => .bind .refl fun _ => .bind .refl fun t => .ite .refl ?_
  exact .bind (within_coalesceOrRedistribute fuel leaf) fun _ => .refl

end IxIndexHandle

/-! ## The left edge -/

namespace IxCore

variable {κ : Type} {c : IxCore κ} {h j : Nat}
  {lay : Nat → List (κ × Int)} {x y : Int} {n : IxNode κ} {k : κ}

/-- The first step of a search. -/
theorem Visited.first [LinearOrder κ] (hv : Visited c k y x) :
    x = y ∨ ∃ n, c.pages y = some n ∧ n.isLeaf = false
    ∧ Visited c k (n.internalLookup k) x := by
  induction hv with
  | start => exact .inl rfl
  | @child x n _ hn hl ih =>
      rcases ih with rfl | ⟨m, hm, hml, hv⟩
      · exact .inr ⟨n, hn, hl, .start⟩
      · exact .inr ⟨m, hm, hml, .child hv hn hl⟩

variable [Inhabited κ]

theorem Leftward.of_leaf [LinearOrder κ] (hl : (c.node y).isLeaf = true) : Leftward c k y := by
  have hleaf : ∀ n, c.pages y = some n → n.isLeaf ≠ false := by
    intro n hn
    rw [← node_of_some hn, hl]
    simp
  intro x n hv hn hnl
  rcases hv.first with rfl | ⟨m, hm, hml, _⟩
  · exact absurd hnl (hleaf n hn)
  · exact absurd hml (hleaf m hm)

theorem Leftward.of_child [LinearOrder κ] (hzero : (c.node y).upperBound k = 0)
    (hchild : Leftward c k ((c.node y).rids 0).pageNo) : Leftward c k y := by
  intro x n hv hn hnl
  rcases hv.first with rfl | ⟨m, hm, hml, hv⟩
  · rwa [node_of_some hn] at hzero
  · rw [node_of_some hm] at hzero hchild
    unfold IxNode.internalLookup at hv
    rw [hzero] at hv
    exact hchild x n hv hn hnl

theorem leftmost_succ (hn : c.pages y = some n) :
    c.leftmost (j + 1) y = c.leftmost j (n.rids 0).pageNo := by
  show c.leftmost j ((c.node y).rids 0).pageNo = _
  rw [node_of_some hn]

/-- The way up from the left-most leaf under a node. -/
theorem Shape.par_leftmost (hs : Shape c h lay) (hj : j ≤ h) (hy : y ∈ names (lay j)) :
    c.par^[j] (c.leftmost j y) = y := by
  induction j generalizing y with
  | zero => rfl
  | succ j ih =>
      obtain ⟨n, k₀, K, hn, _, hkids, _, hmem⟩ := hs.first_kid (by omega) hy
      rw [leftmost_succ hn, Function.iterate_succ_apply', ih (by omega) hmem]
      exact hs.layered.parent j (by omega) y hy _ (by rw [hkids]; simp)

variable [LinearOrder κ]

/-- A key that `upper_bound` puts at the first slot is below all separators of the node. -/
theorem WellFormed.below_separators (hw : WellFormed c h lay) (hj : j < h)
    (hy : y ∈ names (lay (j + 1))) (hn : c.pages y = some n) (hzero : n.upperBound k = 0)
    {e₀ : κ × Int} {K : List (κ × Int)} (hkids : c.kids y = e₀ :: K) : ∀ e ∈ K, k < e.1 := by
  have hsep := hw.tree.separated_kids hw.sizes hj hy (hw.separators j hj y hy)
    (hw.sorted.sublist (under_sublist hw.tree.layered (by omega) hy))
  have hne : ∀ e ∈ c.kids y, c.under j e.2 ≠ [] := fun e he =>
    hw.tree.under_ne_nil hw.sizes hj (hw.tree.layered.kid_mem hj hy (List.mem_map_of_mem he))
  have hent := hw.tree.kids_eq hj hy hn
  cases K with
  | nil => exact fun e he => absurd he (by simp)
  | cons e₁ K =>
      have hlen : 2 ≤ n.numKey := by
        have := congrArg List.length (hkids.symm.trans hent)
        simp only [List.length_cons, List.length_map, IxNode.length_entries] at this
        omega
      have h1 : k < e₁.1 := by
        have hfalse := bisect_eq_zero (Nat.le_refl _) hzero hlen
        have hat := congrArg (·[1]?) (hkids.symm.trans hent)
        simp only [List.getElem?_map, IxNode.getElem?_entries (show 1 < n.numKey by omega)] at hat
        have he₁ : e₁ = (n.keys 1, (n.rids 1).pageNo) := Option.some.inj hat
        rw [he₁]
        exact not_le.mp (of_decide_eq_false hfalse)
      intro e he
      rcases List.mem_cons.mp he with rfl | he
      · exact h1
      · -- something is under the second child, and the later keys are above it
        obtain ⟨a, ha⟩ := List.exists_mem_of_ne_nil _ (hne e₁ (by rw [hkids]; simp))
        have hpair := hsep.apart
        rw [hkids, List.map_cons, List.map_cons, List.pairwise_cons, List.pairwise_cons] at hpair
        have h01 := hpair.1 (e₁.1, c.under j e₁.2) (by simp)
        have h1e := hpair.2.1 (e.1, c.under j e.2) (List.mem_map_of_mem he)
        exact h1.trans_le ((h01.2 a ha).trans (le_of_lt (h1e.1 a ha)))

/-- **On the left edge**, a key the search takes to the first leaf is in its range. -/
theorem WellFormed.inRange_leftmost (hw : WellFormed c h lay)
    (hleft : Leftward c k c.hdr.rootPage) : InRange c h (c.leftmost h c.hdr.rootPage) k := by
  have hs := hw.tree.shape hw.sizes
  have hall : ∀ i, i ≤ h → ∀ y ∈ names (lay i), Leftward c k y → InRange c i (c.leftmost i y) k := by
    intro i hi
    induction i with
    | zero => exact fun y _ _ j hj => absurd hj (by omega)
    | succ i ih =>
        intro y hy hly j hj M₁ kz M₂ hM
        obtain ⟨n, k₀, K, hn, hl, hkids, _, hmem⟩ := hs.first_kid (by omega) hy
        have hzero := hly y n .start hn hl
        have hlook : n.internalLookup k = (n.rids 0).pageNo := by
          unfold IxNode.internalLookup
          rw [hzero]
        rw [leftmost_succ hn] at hM ⊢
        rcases Nat.lt_or_ge j i with hlt | hge
        · refine ih (by omega) _ hmem (fun x m hx => hly x m ?_) j hlt M₁ kz M₂ hM
          exact .head hn hl (hlook ▸ hx)
        · obtain rfl : j = i := by omega
          rw [Function.iterate_succ_apply', hs.par_leftmost (by omega) hmem,
            hs.layered.parent j (by omega) y hy _ (by rw [hkids]; simp)] at hM
          rw [hs.par_leftmost (by omega) hmem]
          -- the first child is at the head, and only there
          have hnil : M₁ = [] := by
            have hnd := hs.layered.kids_nodup (by omega) hy
            rw [hkids] at hM hnd
            cases M₁ with
            | nil => rfl
            | cons e M₁ =>
                rw [List.cons_append, List.cons.injEq] at hM
                rw [hM.2] at hnd
                simp [names] at hnd
          subst hnil
          refine ⟨by simp, ?_⟩
          rw [List.nil_append] at hM
          exact hw.below_separators (by omega) hy hn hzero hM
  exact hall h (Nat.le_refl _) _ hs.layered.root_mem hleft

/-- A key in the range of a leaf is stored there or nowhere. -/
theorem InRange.covers (hr : InRange c h x k) (hw : WellFormed c h lay) (hx : x ∈ names (lay 0))
    (hn : c.pages x = some n) : ∀ e ∈ c.stored lay, e.1 = k → e ∈ n.entries := by
  obtain ⟨A, kx, B, hcut, hA, hB⟩ := hr.layer hw hx (Nat.zero_le _)
  rw [Function.iterate_zero_apply] at hcut
  have hsep := hw.separated.apart
  rw [hw.tree.blocks_at hcut hn, List.append_assoc, List.pairwise_append] at hsep
  obtain ⟨_, hright, hleft⟩ := hsep
  intro e he hek
  rw [← entriesOf_blocks, hw.tree.blocks_at hcut hn, entriesOf_append, entriesOf_append,
    List.mem_append, List.mem_append] at he
  rcases he with (he | he) | he
  · obtain ⟨b, hb, heb⟩ := mem_entriesOf.mp he
    have hlt := (hleft b hb (kx, n.entries) (by simp)).1 e heb
    have hne : A ≠ [] := by
      rintro rfl
      exact absurd hb (by simp)
    exact absurd (hlt.trans_le (hA hne)) (by rw [hek]; exact lt_irrefl _)
  · obtain ⟨b, hb, heb⟩ := mem_entriesOf.mp he
    rw [List.mem_singleton.mp hb] at heb
    exact heb
  · obtain ⟨b, hb, heb⟩ := mem_entriesOf.mp he
    obtain ⟨f, hf, rfl⟩ := List.mem_map.mp hb
    have hge := ((List.pairwise_cons.mp hright).1 _ hb).2 e heb
    exact absurd ((hB f hf).trans_le hge) (by rw [hek]; exact lt_irrefl _)

end IxCore

/-! ## The calls and the map -/

/-- The calls. -/
inductive IxOp (κ : Type) where
  | insert (key : κ) (value : Rid)
  | delete (key : κ)
  | get (key : κ)
deriving DecidableEq

/-- What they return. -/
inductive IxRet where
  | flag (b : Bool)
  | found (rid : Option Rid)
deriving DecidableEq

namespace IxOp

variable {κ : Type} [LinearOrder κ]

def key : IxOp κ → κ
  | insert k _ | delete k | get k => k

/-- A call, with its answer. -/
def exec [Inhabited κ] (fuel : Nat) : IxOp κ → IxM κ IxRet
  | insert k v => do return .flag (← IxIndexHandle.insertEntry fuel k v)
  | delete k => do return .flag (← IxIndexHandle.deleteEntry fuel k)
  | get k => do return .found (← IxIndexHandle.getValue fuel k)

/-- What a call does to the map: a key that is there keeps its rid. -/
def after (m : κ → Option Rid) : IxOp κ → κ → Option Rid
  | insert k v => if (m k).isSome then m else Function.update m k (some v)
  | delete k => Function.update m k none
  | get _ => m

theorem after_insert_some {m : κ → Option Rid} {k : κ} {v v' : Rid} (h : m k = some v') :
    (insert k v).after m = m := by
  show (if (m k).isSome then m else _) = m
  rw [if_pos (by rw [h]; rfl)]

theorem after_insert_none {m : κ → Option Rid} {k : κ} {v : Rid} (h : m k = none) :
    (insert k v).after m = Function.update m k (some v) := by
  show (if (m k).isSome then m else _) = _
  rw [if_neg (by rw [h]; simp)]

theorem after_delete {m : κ → Option Rid} {k : κ} : (delete k).after m = Function.update m k none := rfl

variable [Inhabited κ]

/-- The answers that go with the map. Nothing is asked of `insert_entry`. -/
def Right (m : κ → Option Rid) : IxOp κ → IxRet → Prop
  | insert _ _, _ => True
  | delete k, ret => ret = .flag (m k).isSome
  | get k, ret => ret = .found (m k)

/-- A call that does not delete the last key. -/
def Spares (m : κ → Option Rid) : IxOp κ → Prop
  | delete k => m k = none ∨ ∃ k', k' ≠ k ∧ m k' ≠ none
  | _ => True

/-- The call returns. -/
def Returns (op : IxOp κ) (s : IxIndexHandle κ) (ret : IxRet) (t : IxIndexHandle κ) : Prop :=
  ∃ fuel, (op.exec fuel).run s = .ok ret t

theorem within_exec (op : IxOp κ) (fuel : Nat) : Within (op.exec fuel) (op.exec (fuel + 1)) := by
  cases op with
  | insert k v =>
      refine .bind (.bind (IxIndexHandle.within_findLeafPage k fuel) fun leaf => ?_) fun _ => .refl
      exact IxIndexHandle.within_insertIntoLeaf fuel leaf k v
  | delete k =>
      refine .bind (.bind (IxIndexHandle.within_findLeafPage k fuel) fun leaf => ?_) fun _ => .refl
      exact IxIndexHandle.within_removeFromLeaf fuel leaf k
  | get k =>
      exact .bind (.bind (IxIndexHandle.within_findLeafPage k fuel) fun _ => .refl) fun _ => .refl

/-- A call returns one thing only. -/
theorem Returns.unique {op : IxOp κ} {s t t' : IxIndexHandle κ} {ret ret' : IxRet}
    (h : op.Returns s ret t) (h' : op.Returns s ret' t') : ret = ret' ∧ t = t' := by
  obtain ⟨m, hm⟩ := h
  obtain ⟨n, hn⟩ := h'
  have h1 := within_of_le op.within_exec (Nat.le_max_left m n) s ret t hm
  have h2 := within_of_le op.within_exec (Nat.le_max_right m n) s ret' t' hn
  rw [h1, EStateM.Result.ok.injEq] at h2
  exact h2

end IxOp

namespace IxCore

variable {κ : Type} [LinearOrder κ] [Inhabited κ]

/-- The tree holds what the map says. -/
def Mirrors (c : IxCore κ) (m : κ → Option Rid) : Prop :=
  ∃ h lay, WellFormed c h lay ∧ ∀ k v, (k, v) ∈ c.stored lay ↔ m k = some v

end IxCore

namespace IxIndexHandle

open IxCore

variable {κ : Type} {c : IxCore κ} {h : Nat}
  {lay : Nat → List (κ × Int)} {x : Int} {n : IxNode κ} {k : κ} {v : Rid} {m : κ → Option Rid}
  {op : IxOp κ}

theorem setNode_same (hn : c.pages x = some n) : c.setNode x n = c := by
  unfold setNode
  rw [← hn, Function.update_eq_self]

variable [LinearOrder κ] [Inhabited κ]

theorem findsLeaf_left (hw : WellFormed c h lay) (hleft : Leftward c k c.hdr.rootPage) :
    FindsLeaf c k (c.leftmost h c.hdr.rootPage) :=
  ⟨h + 1, fun _ hfuel => yields_findLeafPage_left (hw.tree.shape hw.sizes) hleft (by omega)⟩

/-- `GetValue` in a leaf. -/
theorem FindsLeaf.getValue (hf : FindsLeaf c k x) (hn : c.pages x = some n) :
    ∃ rounds, ∀ fuel, rounds ≤ fuel →
      Yields (getValue fuel k) c (fun a c' => a = n.leafLookup k ∧ c' = c) := by
  obtain ⟨rounds, hf⟩ := hf
  refine ⟨rounds, fun fuel hfuel => (hf fuel hfuel).then_at ?_⟩
  refine Yields.get_bind (fun s hsat => yields_unpinPage.then_do (Yields.pure ⟨?_, rfl⟩))
  rw [hsat.node, node_of_some hn]

/-- `delete_entry` is the search and the steps behind it. -/
theorem FindsLeaf.deleteEntry {Q : Bool → IxCore κ → Prop} (hf : FindsLeaf c k x)
    (hd : ∃ rounds, ∀ fuel, rounds ≤ fuel → Yields (removeFromLeaf fuel x k) c Q) :
    ∃ rounds, ∀ fuel, rounds ≤ fuel → Yields (deleteEntry fuel k) c Q := by
  obtain ⟨r₁, hf⟩ := hf
  obtain ⟨r₂, hd⟩ := hd
  refine ⟨r₁ + r₂, fun fuel hfuel => ?_⟩
  exact (hf fuel (by omega)).then_at (hd fuel (by omega))

/-- A key the leaf does not have is not removed. -/
theorem yields_removeFromLeaf_none (hn : c.pages x = some n) (hk : ∀ e ∈ n.entries, e.1 ≠ k)
    {fuel : Nat} : Yields (removeFromLeaf fuel x k) c (fun a c' => a = false ∧ c' = c) := by
  unfold removeFromLeaf
  refine Yields.get_bind (fun s hsat => (yields_modifyNode hn).then_do ?_)
  rw [IxNode.remove_of_not_mem hk, setNode_same hn]
  refine Yields.get_bind (fun t htat => ?_)
  rw [htat.node, hsat.node, if_pos rfl]
  exact yields_unpinPage.then_do (Yields.pure ⟨rfl, rfl⟩)

end IxIndexHandle

namespace IxCore

open IxIndexHandle

variable {κ : Type} {c : IxCore κ} {h : Nat}
  {lay : Nat → List (κ × Int)} {x : Int} {n : IxNode κ} {k : κ} {v : Rid} {m : κ → Option Rid}
  {op : IxOp κ}

/-- A key that is not the only one. -/
theorem two_stored {S : List (κ × Rid)} {k' : κ} {v' : Rid} (h1 : (k, v) ∈ S) (h2 : (k', v') ∈ S)
    (hne : k' ≠ k) : 2 ≤ S.length := by
  cases S with
  | nil => exact absurd h1 (by simp)
  | cons e S =>
      cases S with
      | cons f S => simp
      | nil =>
          have he := (List.mem_singleton.mp h2).trans (List.mem_singleton.mp h1).symm
          exact absurd (Prod.mk.inj he).1 hne

variable [LinearOrder κ] [Inhabited κ]

/-- The leaf that a search along the left edge comes to is the leaf of the key. -/
theorem WellFormed.left_leaf (hw : WellFormed c h lay) (hleft : Leftward c k c.hdr.rootPage) :
    ∃ x n, FindsLeaf c k x ∧ InRange c h x k ∧ x ∈ names (lay 0) ∧ c.pages x = some n
      ∧ Increasing n.entries ∧ ∀ v, (k, v) ∈ n.entries ↔ (k, v) ∈ c.stored lay := by
  have hrange := hw.inRange_leftmost hleft
  have hx : c.leftmost h c.hdr.rootPage ∈ names (lay 0) :=
    (hw.tree.shape hw.sizes).leftmost_mem (Nat.le_refl _) hw.tree.layered.root_mem
  obtain ⟨n, hn, _⟩ := hw.tree.view_some (Nat.zero_le _) hx
  refine ⟨_, n, findsLeaf_left hw hleft, hrange, hx, hn, hw.leaf_sorted hx hn, fun v => ?_⟩
  exact ⟨fun he => hw.tree.mem_stored hx hn he, fun he => hrange.covers hw hx hn _ he rfl⟩

theorem Mirrors.insert (hm : Mirrors c m) (hleft : Leftward c k c.hdr.rootPage) :
    ∃ rounds, ∀ fuel, rounds ≤ fuel → Yields (insertEntry fuel k v) c
      (fun _ c' => Mirrors c' ((IxOp.insert k v).after m)) := by
  obtain ⟨h, lay, hw, hmap⟩ := hm
  obtain ⟨x, n, hfind, hrange, hx, hn, hinc, hin⟩ := hw.left_leaf hleft
  cases hmk : m k with
  | some v' =>
      obtain ⟨rounds, hrun⟩ := yields_insertEntry_again (v := v) hw.sound hx hn hinc hfind
        ((hin v').mpr ((hmap k v').mpr hmk))
      refine ⟨rounds, fun fuel hfuel => (hrun fuel hfuel).mono ?_⟩
      rintro a c' ⟨-, rfl⟩
      rw [IxOp.after_insert_some hmk]
      exact ⟨h, lay, hw, hmap⟩
  | none =>
      have hnk : ∀ e ∈ c.stored lay, e.1 ≠ k := by
        rintro ⟨k', v'⟩ he rfl
        have := (hmap _ _).mp he
        rw [hmk] at this
        exact absurd this (by simp)
      obtain ⟨rounds, hrun⟩ := hfind.insertEntry
        ⟨h + 1, fun fuel hfuel => yields_insert (v := v) hw hx hnk hrange (by omega)⟩
      refine ⟨rounds, fun fuel hfuel => (hrun fuel hfuel).mono ?_⟩
      rintro a c' ⟨-, h', lay', hw', S₁, S₂, hS, hS'⟩
      refine ⟨h', lay', hw', fun k' v' => ?_⟩
      have hmem : (k', v') ∈ c'.stored lay' ↔ (k' = k ∧ v' = v) ∨ m k' = some v' := by
        rw [hS', ← hmap, hS]
        simp only [List.mem_append, List.mem_cons, Prod.mk.injEq]
        exact or_left_comm
      rw [hmem, IxOp.after_insert_none hmk]
      by_cases hk' : k' = k
      · subst hk'
        rw [Function.update_self, hmk]
        simp [eq_comm]
      · rw [Function.update_of_ne hk']
        simp [hk']

theorem Mirrors.delete (hm : Mirrors c m) (hspares : (IxOp.delete k).Spares m)
    (hleft : Leftward c k c.hdr.rootPage) : ∃ rounds, ∀ fuel, rounds ≤ fuel →
      Yields (deleteEntry fuel k) c
        (fun a c' => a = (m k).isSome ∧ Mirrors c' ((IxOp.delete k).after m)) := by
  obtain ⟨h, lay, hw, hmap⟩ := hm
  obtain ⟨x, n, hfind, _, hx, hn, _, hin⟩ := hw.left_leaf hleft
  rw [IxOp.after_delete]
  cases hmk : m k with
  | none =>
      -- the leaf the search comes to has no such key, so nothing happens
      have hnk : ∀ e ∈ n.entries, e.1 ≠ k := by
        rintro ⟨k', v'⟩ he rfl
        have := (hmap _ _).mp ((hin v').mp he)
        rw [hmk] at this
        exact absurd this (by simp)
      obtain ⟨rounds, hrun⟩ := hfind.deleteEntry
        ⟨0, fun fuel _ => yields_removeFromLeaf_none hn hnk⟩
      refine ⟨rounds, fun fuel hfuel => (hrun fuel hfuel).mono ?_⟩
      rintro a c' ⟨rfl, rfl⟩
      have hsame : Function.update m k none = m := by
        rw [← hmk, Function.update_eq_self]
      rw [hsame]
      exact ⟨rfl, h, lay, hw, hmap⟩
  | some v =>
      have hk := (hmap k v).mpr hmk
      -- another key stays, so the tree is not emptied
      have h2 : 2 ≤ (c.stored lay).length := by
        rcases hspares with hnone | ⟨k', hne, hk'⟩
        · rw [hmk] at hnone
          exact absurd hnone (by simp)
        · obtain ⟨v', hv'⟩ := Option.ne_none_iff_exists'.mp hk'
          exact two_stored hk ((hmap k' v').mpr hv') hne
      obtain ⟨rounds, hrun⟩ := hfind.deleteEntry
        ⟨h + 3, fun fuel hfuel => yields_remove hw h2 hx hn ((hin v).mpr hk) hfuel⟩
      refine ⟨rounds, fun fuel hfuel => (hrun fuel hfuel).mono ?_⟩
      rintro a c' ⟨rfl, h', lay', hw', hS⟩
      refine ⟨rfl, h', lay', hw', fun k' v' => ?_⟩
      rw [hS, List.mem_filter, hmap]
      by_cases hk' : k' = k
      · subst hk'
        simp
      · rw [Function.update_of_ne hk']
        simp [hk']

theorem Mirrors.get (hm : Mirrors c m) (hleft : Leftward c k c.hdr.rootPage) :
    ∃ rounds, ∀ fuel, rounds ≤ fuel →
      Yields (getValue fuel k) c (fun a c' => a = m k ∧ c' = c) := by
  obtain ⟨h, lay, hw, hmap⟩ := hm
  obtain ⟨x, n, hfind, _, hx, hn, hinc, hin⟩ := hw.left_leaf hleft
  obtain ⟨rounds, hrun⟩ := hfind.getValue hn
  refine ⟨rounds, fun fuel hfuel => (hrun fuel hfuel).mono ?_⟩
  rintro a c' ⟨rfl, rfl⟩
  refine ⟨Option.ext (fun v => ?_), rfl⟩
  rw [IxNode.leafLookup_eq_some hinc, hin, hmap]

/-- **One call on the left edge** answers by the map and leaves a tree that mirrors the map after
the call. -/
theorem Mirrors.exec (hm : Mirrors c m) (hspares : op.Spares m)
    (hleft : Leftward c op.key c.hdr.rootPage) : ∃ rounds, ∀ fuel, rounds ≤ fuel →
      Yields (op.exec fuel) c (fun ret c' => op.Right m ret ∧ Mirrors c' (op.after m)) := by
  cases op with
  | insert k v =>
      obtain ⟨rounds, hrun⟩ := hm.insert (v := v) hleft
      exact ⟨rounds, fun fuel hfuel => (hrun fuel hfuel).bind fun a c' h => Yields.pure ⟨trivial, h⟩⟩
  | delete k =>
      obtain ⟨rounds, hrun⟩ := hm.delete hspares hleft
      refine ⟨rounds, fun fuel hfuel => (hrun fuel hfuel).bind fun a c' h => Yields.pure ⟨?_, h.2⟩⟩
      exact congrArg IxRet.flag h.1
  | get k =>
      obtain ⟨rounds, hrun⟩ := hm.get hleft
      refine ⟨rounds, fun fuel hfuel => (hrun fuel hfuel).bind fun a c' h => Yields.pure ⟨?_, ?_⟩⟩
      · exact congrArg IxRet.found h.1
      · rw [h.2]
        exact hm

end IxCore

end Rucbase
