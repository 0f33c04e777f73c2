import Mathlib.Order.Bounds.Basic
import Rucbase.Index.IxRuns

/-!
# Sorted and minimal keys

The design asks that the key an inner node has for a child is the smallest key stored under that
child. The first split, of a root that is a leaf, makes it so. No later insertion keeps it: a
new smallest key goes into a leaf without a word to the nodes above.
-/

namespace Rucbase

open Lib

namespace IxCore

variable {κ : Type} [LinearOrder κ]

/-- The nodes in the subtree of `y`. -/
inductive Descends (c : IxCore κ) (y : Int) : Int → Prop where
  | self : Descends c y y
  | child {x : Int} {n : IxNode κ} {i : Nat} : Descends c y x → c.pages x = some n →
      n.isLeaf = false → i < n.numKey → Descends c y (n.rids i).pageNo

/-- The keys stored in the subtree of `y`. -/
def keysUnder (c : IxCore κ) (y : Int) : Set κ :=
  {k | ∃ x n v, Descends c y x ∧ c.pages x = some n ∧ n.isLeaf = true ∧ (k, v) ∈ n.entries}

/-- In every node the keys increase, and in every inner node each is the smallest key stored
under its child. -/
structure KeysMinimal (c : IxCore κ) : Prop where
  increasing : ∀ x n, InTree c x → c.pages x = some n → Increasing n.entries
  minimal : ∀ x n, InTree c x → c.pages x = some n → n.isLeaf = false →
    ∀ e ∈ n.entries, IsLeast (c.keysUnder e.2.pageNo) e.1

variable {c : IxCore κ} {n : IxNode κ} {x z r : Int} {k : κ} {v : Rid}

/-- The keys under a leaf are its keys. -/
theorem isLeast_leaf (hn : c.pages x = some n) (hleaf : n.isLeaf = true) (hinc : Increasing n.entries)
    (hpos : 0 < n.numKey) : IsLeast (c.keysUnder x) (n.keys 0) := by
  have hself : ∀ w, Descends c x w → w = x := by
    intro w hw
    induction hw with
    | self => rfl
    | child _ hm hml _ ih =>
        rw [ih, hn, Option.some.injEq] at hm
        rw [← hm, hleaf] at hml
        exact absurd hml (by simp)
  refine ⟨⟨x, n, n.rids 0, .self, hn, hleaf, IxNode.mem_entries.mpr ⟨0, hpos, rfl⟩⟩, ?_⟩
  rintro k ⟨w, m, v, hw, hm, _, he⟩
  rw [hself w hw, hn, Option.some.injEq] at hm
  rw [← hm] at he
  have hhead := IxNode.entries_head hpos
  cases hent : n.entries with
  | nil =>
      rw [hent] at hhead
      exact absurd hhead (by simp)
  | cons e l =>
      rw [hent, List.head?_cons, Option.some.injEq] at hhead
      rw [hent] at hinc he
      have := hinc.head_le (k, v) he
      rwa [hhead] at this

theorem Single.keysMinimal (hs : Single c n) (hinc : Increasing n.entries) : KeysMinimal c := by
  have hroot : ∀ w, InTree c w → w = c.hdr.rootPage := by
    intro w hw
    induction hw with
    | root _ => rfl
    | child _ hm hml _ ih =>
        rw [ih, hs.page, Option.some.injEq] at hm
        rw [← hm, hs.leaf] at hml
        exact absurd hml (by simp)
  refine ⟨fun w m hw hm => ?_, fun w m hw hm hml => ?_⟩
  · rw [hroot w hw, hs.page, Option.some.injEq] at hm
    rwa [← hm]
  · rw [hroot w hw, hs.page, Option.some.injEq] at hm
    rw [← hm, hs.leaf] at hml
    exact absurd hml (by simp)

/-- A root above two leaves, each with its first key. -/
structure Pair (c : IxCore κ) (x z : Int) (nr nx nz : IxNode κ) : Prop where
  root : c.pages c.hdr.rootPage = some nr
  inner : nr.isLeaf = false
  entries : nr.entries = [(nx.keys 0, ⟨x, -1⟩), (nz.keys 0, ⟨z, -1⟩)]
  left : c.pages x = some nx
  right : c.pages z = some nz
  leaves : nx.isLeaf = true ∧ nz.isLeaf = true
  sizes : 0 < nx.numKey ∧ 0 < nz.numKey
  sorted : Increasing (nx.entries ++ nz.entries)

variable {nr nx nz : IxNode κ}

theorem Pair.keysMinimal (hp : Pair c x z nr nx nz) : KeysMinimal c := by
  obtain ⟨hx, hz, hapart⟩ := Increasing.append_iff.mp hp.sorted
  -- the tree has three nodes
  have hnodes : ∀ w, InTree c w → w = c.hdr.rootPage ∨ w = x ∨ w = z := by
    intro w hw
    induction hw with
    | root _ => exact .inl rfl
    | @child w m i _ hm hml hi ih =>
        rcases ih with rfl | rfl | rfl
        · rw [hp.root, Option.some.injEq] at hm
          subst hm
          have hmem : (nr.keys i, nr.rids i) ∈ nr.entries := IxNode.mem_entries.mpr ⟨i, hi, rfl⟩
          rw [hp.entries] at hmem
          simp only [List.mem_cons, Prod.mk.injEq, List.not_mem_nil, or_false] at hmem
          rcases hmem with ⟨_, h⟩ | ⟨_, h⟩
          · rw [h]
            exact .inr (.inl rfl)
          · rw [h]
            exact .inr (.inr rfl)
        · rw [hp.left, Option.some.injEq] at hm
          rw [← hm, hp.leaves.1] at hml
          exact absurd hml (by simp)
        · rw [hp.right, Option.some.injEq] at hm
          rw [← hm, hp.leaves.2] at hml
          exact absurd hml (by simp)
  refine ⟨fun w m hw hm => ?_, fun w m hw hm hml => ?_⟩
  · rcases hnodes w hw with rfl | rfl | rfl
    · rw [hp.root, Option.some.injEq] at hm
      rw [← hm, hp.entries]
      have hlt := hapart _ (IxNode.mem_entries.mpr ⟨0, hp.sizes.1, rfl⟩) _
        (IxNode.mem_entries.mpr ⟨0, hp.sizes.2, rfl⟩)
      exact List.pairwise_pair.mpr hlt
    · rw [hp.left, Option.some.injEq] at hm
      rwa [← hm]
    · rw [hp.right, Option.some.injEq] at hm
      rwa [← hm]
  · rcases hnodes w hw with rfl | rfl | rfl
    · rw [hp.root, Option.some.injEq] at hm
      rw [← hm, hp.entries]
      intro e he
      simp only [List.mem_cons, List.not_mem_nil, or_false] at he
      rcases he with rfl | rfl
      · exact isLeast_leaf hp.left hp.leaves.1 hx hp.sizes.1
      · exact isLeast_leaf hp.right hp.leaves.2 hz hp.sizes.2
    · rw [hp.left, Option.some.injEq] at hm
      rw [← hm, hp.leaves.1] at hml
      exact absurd hml (by simp)
    · rw [hp.right, Option.some.injEq] at hm
      rw [← hm, hp.leaves.2] at hml
      exact absurd hml (by simp)

variable [Inhabited κ]

/-- The first split. -/
theorem pair_growRoot (hcs : CanSplit c x n) (hroot : x = c.hdr.rootPage) (hleaf : n.isLeaf = true)
    (hinc : Increasing n.entries) (hbig : 2 ≤ n.numKey) {last : Int} :
    ∃ nr nx nz, Pair { (c.split x).growRoot x (c.newKey x) c.nextPageNo with
      hdr := { ((c.split x).growRoot x (c.newKey x) c.nextPageNo).hdr with lastLeaf := last } }
      x c.nextPageNo nr nx nz := by
  have hne : x ≠ (c.nextPageNo : Int) := by
    have := hcs.lt
    omega
  have hvx : (c.split x).view x = some (lower n.view) := by
    rw [view_split hcs, if_pos rfl]
  have hvz : (c.split x).view c.nextPageNo = some (upper n.view) := by
    rw [view_split hcs, if_neg (Ne.symm hne), if_pos rfl]
  obtain ⟨nx, hnx, hnxv⟩ := pages_of_view hvx
  obtain ⟨nz, hnz, hnzv⟩ := pages_of_view hvz
  have hkey : c.newKey x = nz.keys 0 := by
    rw [newKey, node_of_some hnz]
  have hnext : (c.split x).nextPageNo = c.nextPageNo + 1 := hdr_split.2
  have hr : ((c.split x).nextPageNo : Int) ≠ c.nextPageNo ∧ ((c.split x).nextPageNo : Int) ≠ x := by
    have := hcs.lt
    rw [hnext]
    push_cast
    omega
  have hnxe : nx.entries = n.entries.take (mid n.view) := congrArg NodeView.entries hnxv
  have hnze : nz.entries = n.entries.drop (mid n.view) := congrArg NodeView.entries hnzv
  have hmid : mid n.view = (n.numKey + 1) / 2 := by
    show (n.entries.length + 1) / 2 = _
    rw [IxNode.length_entries]
  -- what each half has, by the node that was split
  have hsx := congrArg List.length hnxe
  have hsz := congrArg List.length hnze
  rw [IxNode.length_entries, List.length_take, IxNode.length_entries] at hsx
  rw [IxNode.length_entries, List.length_drop, IxNode.length_entries] at hsz
  refine ⟨twoChildren (nx.keys 0) x (nz.keys 0) c.nextPageNo,
    nx.setParent (c.split x).nextPageNo, nz.setParent (c.split x).nextPageNo, ?_, rfl,
    entries_twoChildren, ?_, ?_, ⟨?_, ?_⟩, ⟨?_, ?_⟩, ?_⟩
  · rw [hkey]
    unfold growRoot
    rw [node_of_some hnx, node_of_some hnz]
    show (IxCore.setNode _ _ _).pages ((c.split x).nextPageNo : Int) = _
    rw [setNode_pages_of_ne hr.1, setNode_pages_of_ne hr.2]
    exact setNode_pages_self
  · unfold growRoot
    rw [node_of_some hnx]
    show (IxCore.setNode _ _ _).pages _ = _
    rw [setNode_pages_of_ne hne]
    exact setNode_pages_self
  · unfold growRoot
    rw [node_of_some hnz]
    exact setNode_pages_self
  · exact (congrArg NodeView.isLeaf hnxv).trans hleaf
  · exact (congrArg NodeView.isLeaf hnzv).trans hleaf
  · show 0 < nx.numKey
    omega
  · show 0 < nz.numKey
    omega
  · show Increasing (nx.entries ++ nz.entries)
    rwa [hnxe, hnze, List.take_append_drop]

end IxCore

namespace IxIndexHandle

open IxCore

variable {κ : Type} [LinearOrder κ] [Inhabited κ] {c : IxCore κ} {n : IxNode κ} {k : κ} {v : Rid}

/-- **An insertion into a root that is a leaf** leaves such a root, or a root above two leaves. -/
theorem yields_insert_single (hs : Single c n) (hinc : Increasing n.entries) :
    ∃ rounds, ∀ fuel, rounds ≤ fuel → Yields (insertEntry fuel k v) c (fun _ c' =>
      (∃ n', Single c' n' ∧ Increasing n'.entries)
        ∨ ∃ x z nr nx nz, Pair c' x z nr nx nz) := by
  obtain ⟨hfl, hfp, hfn, hfv⟩ := IxNode.insert_fields (n := n) (k := k) (v := v)
  obtain ⟨hge, hle⟩ := IxNode.numKey_insert (n := n) (k := k) (v := v)
  have hsound := hs.sound
  have hroot := hsound.tree.layered.root_mem
  have ht := hsound.tree.setLeaf hroot hs.page hfl hfp
  have hring := hsound.ring.setLeaf hs.page hfn hfv
  have hminc : Increasing (n.insert k v).entries := by
    by_cases hk : ∃ v', (k, v') ∈ n.entries
    · obtain ⟨v', hk⟩ := hk
      rwa [IxNode.insert_of_mem hinc hk]
    · have hnk : ∀ e ∈ n.entries, e.1 ≠ k := by
        rintro ⟨k', v'⟩ he rfl
        exact hk ⟨v', he⟩
      obtain ⟨L₁, L₂, hent, hins, h₁, h₂⟩ := IxNode.entries_insert (v := v) hinc hnk
      rw [hent] at hinc
      rw [hins]
      exact hinc.insert h₁ h₂
  have horder := hs.order
  have hroom := hs.room
  refine (findsLeaf_root hs.page hs.leaf).insertEntry ⟨1, fun fuel hfuel => ?_⟩
  obtain ⟨fuel, rfl⟩ : ∃ d, fuel = d + 1 := ⟨fuel - 1, by omega⟩
  unfold insertIntoLeaf
  refine (yields_modifyNode hs.page).then_do ?_
  generalize n.insert k v = m at *
  have hm : (c.setNode c.hdr.rootPage m).pages c.hdr.rootPage = some m := setNode_pages_self
  refine Yields.get_bind (fun s hsat => ?_)
  have hmax : s.fileHdr.maxSize = c.hdr.btreeOrder + 1 := by
    rw [hsat.fileHdr]
    rfl
  have hlast : s.fileHdr.lastLeaf = c.hdr.rootPage := by
    rw [hsat.fileHdr]
    exact hs.ends.2
  rw [hsat.node, node_of_some hm, hmax, hlast]
  by_cases hfull : (m.numKey : Int) = c.hdr.btreeOrder + 1
  · rw [onlyIf_pos hfull]
    have hcs := ht.canSplit (Nat.le_refl _) hroot hm
      (fun _ => (ht.ring_page hring (hring.ring.next_mem hroot)).1)
    have hb := ht.below_split (Nat.le_refl _) hroot hcs
    have hne : c.hdr.rootPage ≠ (c.nextPageNo : Int) := by
      have := hs.range.2
      omega
    have hkids : m.isLeaf = false → ∀ i, i < m.numKey →
        ((c.setNode c.hdr.rootPage m).pages (m.rids i).pageNo).isSome := by
      intro hl
      rw [hfl, hs.leaf] at hl
      exact absurd hl (by simp)
    rw [bind_assoc]
    refine (yields_split ht.below hm hcs.lt hcs.next hkids).then_at ?_
    rw [bind_assoc]
    refine Yields.get_bind (fun t htat => ?_)
    rw [bind_assoc, htat.node]
    -- the old root has no parent: a new one is made
    have hvx : ((c.setNode c.hdr.rootPage m).split c.hdr.rootPage).view c.hdr.rootPage
        = some (lower m.view) := by
      rw [view_split hcs, if_pos rfl]
    have hvz : ((c.setNode c.hdr.rootPage m).split c.hdr.rootPage).view c.nextPageNo
        = some (upper m.view) := by
      rw [view_split hcs, if_neg (Ne.symm hne)]
      exact if_pos rfl
    obtain ⟨nx, hnx, hnxv⟩ := pages_of_view hvx
    obtain ⟨nz, hnz, _⟩ := pages_of_view hvz
    have hnext : ((c.setNode c.hdr.rootPage m).split c.hdr.rootPage).nextPageNo = c.nextPageNo + 1 :=
      hdr_split.2
    have hrange := hs.range.2
    have hgrow := yields_growRoot hb (newKey (c.setNode c.hdr.rootPage m) c.hdr.rootPage)
      (x := c.hdr.rootPage) (z := c.nextPageNo) (by rw [hnx]; rfl) (by rw [hnext]; push_cast; omega)
      (by rw [hnz]; rfl) (by rw [hnext]; push_cast; omega) hne
    have hpar : nx.parent = ixNoPage := (congrArg NodeView.parent hnxv).trans (hfp.trans hs.parent)
    have hparent : Yields (insertIntoParent (fuel + 1) c.hdr.rootPage
        (newKey (c.setNode c.hdr.rootPage m) c.hdr.rootPage) c.nextPageNo)
        ((c.setNode c.hdr.rootPage m).split c.hdr.rootPage) (fun _ c' =>
          c' = ((c.setNode c.hdr.rootPage m).split c.hdr.rootPage).growRoot c.hdr.rootPage
            (newKey (c.setNode c.hdr.rootPage m) c.hdr.rootPage) c.nextPageNo) := by
      unfold insertIntoParent
      refine Yields.get_bind (fun u huat => ?_)
      rw [huat.node, node_of_some hnx, if_pos hpar]
      exact hgrow
    refine hparent.then_do ?_
    rw [onlyIf_pos rfl, bind_assoc]
    refine yields_modifyHdr.then_do (yields_unpinPage.then_do (yields_unpinPage.then_do
      (Yields.pure (.inr ⟨c.hdr.rootPage, c.nextPageNo, ?_⟩))))
    exact pair_growRoot hcs rfl (hfl.trans hs.leaf) hminc (by omega)
  · rw [onlyIf_neg hfull, pure_bind]
    refine yields_unpinPage.then_do (Yields.pure (.inl ⟨m, ?_, hminc⟩))
    obtain ⟨mh, hmh, hmn, hmp⟩ := hs.header
    refine ⟨hm, hfl.trans hs.leaf, hfp.trans hs.parent, ⟨hfn.trans hs.links.1, hfv.trans hs.links.2⟩,
      ⟨mh, ?_, hmn, hmp⟩, hs.range, hs.ends, hs.count, hs.order, ?_⟩
    · rw [setNode_pages_of_ne]
      · exact hmh
      · have := hs.range.1
        unfold ixLeafHeaderPage
        omega
    · show (m.numKey : Int) ≤ c.hdr.btreeOrder
      omega

end IxIndexHandle

/-! ## Runs of insertions -/

namespace IxWorld

open IxIndexHandle IxCore

variable {κ : Type} [LinearOrder κ] {order : Nat} {hdr : IxFileHdr}
  {page0 junk : IxNode κ} {w w' : IxWorld κ} {op : IxOp κ} {ret : IxRet}
  {history : List (IxOp κ × IxRet)}

/-- The call is an insertion. -/
def Inserting (_ : IxWorld κ) (op : IxOp κ) : Prop := ∃ k v, op = .insert k v

/-- The root is a leaf. -/
def RootLeaf [Inhabited κ] (w : IxWorld κ) : Prop :=
  (w.index.core.node w.index.core.hdr.rootPage).isLeaf = true

/-- A single leaf, or what the first split makes of it. -/
structure Early (w : IxWorld κ) : Prop where
  frames : w.index.store.frames = none
  state : (∃ n, Single w.index.core n ∧ Increasing n.entries)
    ∨ ∃ x z nr nx nz, Pair w.index.core x z nr nx nz

theorem created_early (horder : 3 ≤ order) : Early (created order hdr page0 junk) :=
  ⟨rfl, .inl ⟨_, created_single horder, .nil⟩⟩

theorem Early.keysMinimal (he : Early w) : KeysMinimal w.index.core := by
  rcases he.state with ⟨n, hs, hinc⟩ | ⟨x, z, nr, nx, nz, hp⟩
  · exact hs.keysMinimal hinc
  · exact hp.keysMinimal

variable [Inhabited κ]

theorem Early.step (he : Early w)
    (hstep : Step (fun w op => Inserting w op ∧ RootLeaf w) w (op, ret) w') : Early w' := by
  obtain ⟨⟨⟨k, v, rfl⟩, hleaf⟩, hreturns, -⟩ := hstep
  rcases he.state with ⟨n, hs, hinc⟩ | ⟨x, z, nr, nx, nz, hp⟩
  · obtain ⟨rounds, hrun⟩ := yields_insert_single (k := k) (v := v) hs hinc
    obtain ⟨a, t, c', hok, ht, hstate, _⟩ := hrun rounds (Nat.le_refl _) w.index ⟨rfl, he.frames⟩
    have hreturns' : (IxOp.insert k v).Returns w.index (.flag a) t :=
      ⟨rounds, (bind_ok hok).trans rfl⟩
    obtain ⟨_, rfl⟩ := hreturns'.unique hreturns
    refine ⟨ht.2, ?_⟩
    rw [ht.1]
    exact hstate
  · -- the root is not a leaf any more
    unfold RootLeaf at hleaf
    rw [node_of_some hp.root, hp.inner] at hleaf
    exact absurd hleaf (by simp)

/-- **Insertions into a root that is a leaf** keep all keys sorted and minimal, the one that
splits it included. -/
theorem inserts_keysMinimal (horder : 3 ≤ order)
    (hrun : Run (Step fun w op => Inserting w op ∧ RootLeaf w) (created order hdr page0 junk) history
      w) : KeysMinimal w.index.core := by
  have he : Early w := hrun.invariant (created_early horder)
    (fun _ _ _ h hstep => h.step hstep)
  exact he.keysMinimal

/-- Four keys: the fourth splits the root. -/
theorem inserts_keysMinimal_split :
    ∃ history, Run (Step fun w op => Inserting w op ∧ RootLeaf w) small history (grown [10, 20, 30, 40])
      ∧ KeysMinimal (grown [10, 20, 30, 40]).index.core := by
  have h1 : Step (fun w op => Inserting w op ∧ RootLeaf w) (grown [])
      (.insert 10 ⟨1, 10⟩, .flag true) (grown [10]) :=
    grown_step (by decide +kernel) ⟨⟨_, _, rfl⟩, by unfold RootLeaf; decide +kernel⟩
  have h2 : Step (fun w op => Inserting w op ∧ RootLeaf w) (grown [10])
      (.insert 20 ⟨1, 20⟩, .flag true) (grown [10, 20]) :=
    grown_step (by decide +kernel) ⟨⟨_, _, rfl⟩, by unfold RootLeaf; decide +kernel⟩
  have h3 : Step (fun w op => Inserting w op ∧ RootLeaf w) (grown [10, 20])
      (.insert 30 ⟨1, 30⟩, .flag true) (grown [10, 20, 30]) :=
    grown_step (by decide +kernel) ⟨⟨_, _, rfl⟩, by unfold RootLeaf; decide +kernel⟩
  have h4 : Step (fun w op => Inserting w op ∧ RootLeaf w) (grown [10, 20, 30])
      (.insert 40 ⟨1, 40⟩, .flag true) (grown [10, 20, 30, 40]) :=
    grown_step (by decide +kernel)
      ⟨⟨_, _, rfl⟩, by unfold RootLeaf; decide +kernel⟩
  have hrun := Run.step (Run.step (Run.step (Run.step Run.nil h1) h2) h3) h4
  exact ⟨_, hrun, inserts_keysMinimal (by decide) hrun⟩

/-- **A new smallest key leaves the root with an old one**: 5 after `10 20 30 40`. -/
theorem grown_not_keysMinimal : ∃ history, Run (Step Inserting) small history (grown [10, 20, 30, 40, 5])
    ∧ ¬ KeysMinimal (grown [10, 20, 30, 40, 5]).index.core := by
  have h1 : Step Inserting (grown []) (.insert 10 ⟨1, 10⟩, .flag true) (grown [10]) :=
    grown_step (by decide +kernel) ⟨_, _, rfl⟩
  have h2 : Step Inserting (grown [10]) (.insert 20 ⟨1, 20⟩, .flag true) (grown [10, 20]) :=
    grown_step (by decide +kernel) ⟨_, _, rfl⟩
  have h3 : Step Inserting (grown [10, 20]) (.insert 30 ⟨1, 30⟩, .flag true) (grown [10, 20, 30]) :=
    grown_step (by decide +kernel) ⟨_, _, rfl⟩
  have h4 : Step Inserting (grown [10, 20, 30]) (.insert 40 ⟨1, 40⟩, .flag true)
      (grown [10, 20, 30, 40]) :=
    grown_step (by decide +kernel) ⟨_, _, rfl⟩
  have h5 : Step Inserting (grown [10, 20, 30, 40]) (.insert 5 ⟨1, 5⟩, .flag true)
      (grown [10, 20, 30, 40, 5]) :=
    grown_step (by decide +kernel) ⟨_, _, rfl⟩
  refine ⟨_, .step (.step (.step (.step (.step .nil h1) h2) h3) h4) h5, fun hmin => ?_⟩
  generalize hc : (grown [10, 20, 30, 40, 5]).index.core = c at hmin
  -- the root is page 4, its first child the leaf on page 2
  have hroot : c.hdr.rootPage = 4 := by rw [← hc]; decide +kernel
  have h4s : (c.pages 4).isSome := by rw [← hc]; decide +kernel
  have h2s : (c.pages 2).isSome := by rw [← hc]; decide +kernel
  have hinner : (c.node 4).isLeaf = false := by rw [← hc]; decide +kernel
  have hleaf : (c.node 2).isLeaf = true := by rw [← hc]; decide +kernel
  have hentry : ((10 : Nat), (⟨2, -1⟩ : Rid)) ∈ (c.node 4).entries := by rw [← hc]; decide +kernel
  have hkey : ((5 : Nat), (⟨1, 5⟩ : Rid)) ∈ (c.node 2).entries := by rw [← hc]; decide +kernel
  have hin : InTree c 4 := hroot ▸ .root (by rw [hroot]; decide)
  have hleast := hmin.minimal 4 _ hin (pages_of_isSome h4s) hinner _ hentry
  have hle : (10 : Nat) ≤ 5 := hleast.2 ⟨2, _, _, .self, pages_of_isSome h2s, hleaf, hkey⟩
  exact absurd hle (by decide)

end IxWorld

end Rucbase
