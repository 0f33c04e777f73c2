import Rucbase.Index.IxIndexHandle

/-!
# What the calls on an index do

`Yields x c Q`: on every handle whose core is `c`, whatever its pins, the call `x` returns, its
answer and the core it leaves satisfy `Q`, and every page it created was fresh. The functions
that change the tree are run once here, each to the core it computes.
-/

namespace Rucbase

open Lib

namespace IxCore

variable {κ : Type}

/-- The node behind a page number. -/
def node [Inhabited κ] (c : IxCore κ) (no : Int) : IxNode κ := (c.pages no).getD .blank

/-- A node replaced. -/
def setNode (c : IxCore κ) (no : Int) (n : IxNode κ) : IxCore κ :=
  { c with pages := Function.update c.pages no (some n) }

/-- The root replaced. -/
def setRoot (c : IxCore κ) (no : Int) : IxCore κ := { c with hdr := { c.hdr with rootPage := no } }

/-- `num_pages` changed. -/
def addPages (c : IxCore κ) (k : Int) : IxCore κ :=
  { c with hdr := { c.hdr with numPages := c.hdr.numPages + k } }

/-- The last leaf replaced. -/
def setLast (c : IxCore κ) (no : Int) : IxCore κ := { c with hdr := { c.hdr with lastLeaf := no } }

/-- One more page, counted and zeroed. -/
def extend [Inhabited κ] (c : IxCore κ) : IxCore κ :=
  { hdr := { c.hdr with numPages := c.hdr.numPages + 1 }
    pages := Function.update c.pages c.nextPageNo (some .blank)
    nextPageNo := c.nextPageNo + 1 }

/-- The pages of `l` made children of `no`. -/
def adopt (c : IxCore κ) (no : Int) (l : List Int) : IxCore κ :=
  { c with pages := fun w => if w ∈ l then (c.pages w).map (·.setParent no) else c.pages w }

/-- The nodes of the tree: the root, and the children the entries in use name. -/
inductive InTree (c : IxCore κ) : Int → Prop where
  | root : c.hdr.rootPage ≠ ixNoPage → InTree c c.hdr.rootPage
  | child {x : Int} {n : IxNode κ} {i : Nat} : InTree c x → c.pages x = some n →
      n.isLeaf = false → i < n.numKey → InTree c (n.rids i).pageNo

/-- A page number that is none of the two header pages and no node of the tree. -/
def Fresh (e : Int × IxCore κ) : Prop :=
  e.1 ≠ 0 ∧ e.1 ≠ ixLeafHeaderPage ∧ ∀ x, InTree e.2 x → e.1 ≠ x

/-- The allocation counter is above everything in the tree. -/
def Below (c : IxCore κ) : Prop := 2 ≤ c.nextPageNo ∧ ∀ x, InTree c x → x < c.nextPageNo

variable {c c' : IxCore κ} {no : Int} {n : IxNode κ}

theorem node_of_some [Inhabited κ] (h : c.pages no = some n) : c.node no = n := by
  rw [node, h]
  rfl

theorem setNode_pages_self : (c.setNode no n).pages no = some n := Function.update_self ..

theorem setNode_pages_of_ne {w : Int} (h : w ≠ no) : (c.setNode no n).pages w = c.pages w :=
  Function.update_of_ne h ..

theorem setNode_setNode {m : IxNode κ} : (c.setNode no n).setNode no m = c.setNode no m := by
  unfold setNode
  rw [Function.update_idem]

theorem isSome_setNode {c : IxCore κ} {no w : Int} {n : IxNode κ} (h : (c.pages w).isSome) :
    ((c.setNode no n).pages w).isSome := by
  by_cases hw : w = no
  · rw [hw, setNode_pages_self]
    rfl
  · rw [setNode_pages_of_ne hw]
    exact h

theorem InTree.congr {x : Int} (h : InTree c x) (hroot : c'.hdr.rootPage = c.hdr.rootPage)
    (hpages : c'.pages = c.pages) : InTree c' x := by
  induction h with
  | root hne =>
      rw [← hroot] at hne ⊢
      exact .root hne
  | child _ hx hleaf hi ih => exact .child ih (hpages ▸ hx) hleaf hi

end IxCore

namespace IxIndexHandle

variable {κ : Type}

/-- A handle with core `c` and a pool that never runs out. -/
def At (s : IxIndexHandle κ) (c : IxCore κ) : Prop := s.core = c ∧ s.store.frames = none

def Yields {α : Type} (x : IxM κ α) (c : IxCore κ) (Q : α → IxCore κ → Prop) : Prop :=
  ∀ s : IxIndexHandle κ, s.At c → ∃ a t c', x.run s = .ok a t ∧ t.At c' ∧ Q a c'
    ∧ ∃ new, t.created = new ++ s.created ∧ ∀ e ∈ new, IxCore.Fresh e

variable {α β : Type} {x : IxM κ α} {f : α → IxM κ β} {c : IxCore κ} {Q : α → IxCore κ → Prop}
  {R : β → IxCore κ → Prop} {s : IxIndexHandle κ} {no : Int} {n : IxNode κ}

theorem At.node [Inhabited κ] (h : s.At c) : s.node no = c.node no := by
  rw [← h.1]
  rfl

theorem At.fileHdr (h : s.At c) : s.fileHdr = c.hdr := by
  rw [← h.1]
  rfl

namespace Yields

theorem bind (hx : Yields x c Q) (hf : ∀ a c', Q a c' → Yields (f a) c' R) :
    Yields (x >>= f) c R := by
  intro s hs
  obtain ⟨a, t, c', hrun, ht, hq, new, hnew, hfresh⟩ := hx s hs
  obtain ⟨b, u, c'', hrun', hu, hr, new', hnew', hfresh'⟩ := hf a c' hq t ht
  refine ⟨b, u, c'', (bind_ok hrun).trans hrun', hu, hr, new' ++ new, ?_, ?_⟩
  · rw [hnew', hnew, List.append_assoc]
  · intro e he
    exact (List.mem_append.mp he).elim (hfresh' e) (hfresh e)

/-- A call whose answer and effect are known. -/
theorem then_at {v : α} {d : IxCore κ} (hx : Yields x c (fun a c' => a = v ∧ c' = d))
    (hf : Yields (f v) d R) : Yields (x >>= f) c R := by
  refine hx.bind (fun a c' h => ?_)
  rw [h.1, h.2]
  exact hf

/-- A call that answers nothing and whose effect is known. -/
theorem then_do {x : IxM κ PUnit} {f : PUnit → IxM κ β} {d : IxCore κ}
    (hx : Yields x c (fun _ c' => c' = d)) (hf : Yields (f ⟨⟩) d R) : Yields (x >>= f) c R := by
  refine hx.bind (fun a c' h => ?_)
  rw [h]
  exact hf

theorem mono {Q' : α → IxCore κ → Prop} (hx : Yields x c Q) (hQ : ∀ a c', Q a c' → Q' a c') :
    Yields x c Q' := by
  intro s hs
  obtain ⟨a, t, c', hrun, ht, hq, hnew⟩ := hx s hs
  exact ⟨a, t, c', hrun, ht, hQ a c' hq, hnew⟩

theorem pure {a : α} (h : Q a c) : Yields (Pure.pure a : IxM κ α) c Q := by
  intro s hs
  exact ⟨a, s, c, rfl, hs, h, [], rfl, by simp⟩

/-- A leading `get` sees nothing of the state but its core. -/
theorem get_bind {g : IxIndexHandle κ → IxM κ β} (h : ∀ s, s.At c → Yields (g s) c R) :
    Yields (get >>= g) c R := by
  intro s hs
  exact h s hs s hs

/-- Calls that read and write, but create no page. -/
theorem of_run (h : ∀ s : IxIndexHandle κ, s.At c →
    ∃ a t c', x.run s = .ok a t ∧ t.At c' ∧ Q a c' ∧ t.created = s.created) : Yields x c Q := by
  intro s hs
  obtain ⟨a, t, c', hrun, ht, hq, hcr⟩ := h s hs
  exact ⟨a, t, c', hrun, ht, hq, [], hcr, by simp⟩

end Yields

/-! ## The small calls -/

theorem yields_modifyNode [Inhabited κ] {g : IxNode κ → IxNode κ} (hp : c.pages no = some n) :
    Yields (modifyNode no g) c (fun _ c' => c' = c.setNode no (g n)) := by
  refine Yields.of_run (fun s hs => ⟨⟨⟩, _, _, rfl, ⟨rfl, hs.2⟩, ?_, rfl⟩)
  rw [← IxCore.node_of_some hp, ← hs.node, ← hs.1]
  rfl

theorem yields_modifyHdr {g : IxFileHdr → IxFileHdr} :
    Yields (modifyHdr g) c (fun _ c' => c' = { c with hdr := g c.hdr }) := by
  refine Yields.of_run (fun s hs => ⟨⟨⟩, _, _, rfl, ⟨rfl, hs.2⟩, ?_, rfl⟩)
  rw [← hs.1]
  rfl

theorem yields_unpinPage : Yields (unpinPage no) c (fun _ c' => c' = c) := by
  refine Yields.of_run (fun s hs => ⟨⟨⟩, _, c, rfl, ⟨?_, hs.2⟩, rfl, rfl⟩)
  rw [← hs.1]
  rfl

theorem yields_deletePage :
    Yields (modify fun s : IxIndexHandle κ => { s with store := s.store.deletePage no }) c
      (fun _ c' => c' = c) :=
  Yields.of_run (fun s hs => ⟨⟨⟩, s, c, rfl, hs, rfl, rfl⟩)

/-- `FetchNode` with no frame left. -/
theorem run_fetchNode_refused (hr : s.store.Refuses no) :
    (fetchNode no).run s = .error .undefinedBehaviour s := by
  rw [fetchNode, run_get_bind, PageStore.fetchPage_refuses hr]
  rfl

theorem run_fetchNode_missing (hr : ¬ s.store.Refuses no) (hp : s.store.pages no = none) :
    (fetchNode no).run s = .error .unixError s := by
  rw [fetchNode, run_get_bind, PageStore.fetchPage_missing hr hp]
  rfl

theorem run_fetchNode_some (hr : ¬ s.store.Refuses no) (hp : s.store.pages no = some n) :
    (fetchNode no).run s
      = .ok no { s with store := { s.store with pins := no :: s.store.pins } } := by
  rw [fetchNode, run_get_bind, PageStore.fetchPage_some hr hp]
  rfl

/-- What `FetchNode` does to the handle. -/
theorem run_fetchNode (he : s.store.frames = none) (hp : s.store.pages no = some n) :
    (fetchNode no).run s
      = .ok no { s with store := { s.store with pins := no :: s.store.pins } } :=
  run_fetchNode_some (PageStore.not_refuses he) hp

theorem yields_fetchNode (hp : c.pages no = some n) :
    Yields (fetchNode no) c (fun a c' => a = no ∧ c' = c) := by
  refine Yields.of_run (fun s hs => ?_)
  have hp' : s.store.pages no = some n := by
    rw [← hs.1] at hp
    exact hp
  exact ⟨no, _, c, run_fetchNode hs.2 hp', ⟨hs.1, hs.2⟩, ⟨rfl, rfl⟩, rfl⟩

/-- **`CreateNode`**: the number is fresh if the counter is above the tree. -/
theorem yields_createNode [Inhabited κ] (hb : c.Below) :
    Yields createNode c (fun a c' => a = (c.nextPageNo : Int) ∧ c' = c.extend) := by
  rintro s ⟨rfl, he⟩
  have hrun : createNode.run s = .ok (s.store.nextPageNo : Int)
      { fileHdr := s.core.extend.hdr
        store := ⟨s.core.extend.pages, (s.store.nextPageNo : Int) :: s.store.pins,
          s.store.nextPageNo + 1, s.store.frames⟩
        created := ((s.store.nextPageNo : Int), s.core.addPages 1) :: s.created
        unpinned := s.unpinned } := by
    unfold createNode modifyHdr
    rw [run_modify_bind, run_get_bind, PageStore.newPage_enough he]
    rfl
  refine ⟨_, _, s.core.extend, hrun, ⟨rfl, he⟩, ⟨rfl, rfl⟩,
    [((s.store.nextPageNo : Int), s.core.addPages 1)], rfl, ?_⟩
  intro e hmem
  rw [List.mem_singleton.mp hmem]
  have h2 : 2 ≤ s.store.nextPageNo := hb.1
  refine ⟨?_, ?_, ?_⟩
  · show (s.store.nextPageNo : Int) ≠ 0
    omega
  · show (s.store.nextPageNo : Int) ≠ 1
    omega
  · intro x hx heq
    have hlt : x < (s.store.nextPageNo : Int) := hb.2 x (hx.congr rfl rfl)
    have heq' : (s.store.nextPageNo : Int) = x := heq
    omega

theorem yields_findChild [Inhabited κ] {parent child : Int} {idx : Nat} (hp : c.pages parent = some n)
    (hi : n.findChild child = some idx) :
    Yields (findChild parent child) c (fun a c' => a = idx ∧ c' = c) := by
  refine Yields.get_bind (fun s hs => ?_)
  rw [hs.node, IxCore.node_of_some hp, hi]
  exact Yields.pure ⟨rfl, rfl⟩

theorem yields_onlyIf_pos {p : Prop} [Decidable p] {y : IxM κ PUnit}
    {Q : PUnit → IxCore κ → Prop} (hp : p) (hy : Yields y c Q) : Yields (onlyIf p y) c Q := by
  rwa [onlyIf_pos hp]

theorem yields_onlyIf_neg {p : Prop} [Decidable p] {y : IxM κ PUnit}
    {Q : PUnit → IxCore κ → Prop} (hp : ¬ p) (hq : Q ⟨⟩ c) : Yields (onlyIf p y) c Q := by
  rw [onlyIf_neg hp]
  exact Yields.pure hq

/-! ## Parents and leaf links -/

theorem run_assertUnpinPage (h : no ∈ s.store.pins) :
    (assertUnpinPage no).run s = .ok ⟨⟩
      { s with store := s.store.unpinPage no, unpinned := (no, s.store.pins) :: s.unpinned } := by
  unfold assertUnpinPage
  rw [run_get_bind, if_pos h]
  rfl

variable [Inhabited κ]

theorem yields_maintainChild {child : Int} {m : IxNode κ} {i : Nat} (hp : c.pages no = some n)
    (hleaf : n.isLeaf = false) (hchild : (n.rids i).pageNo = child)
    (hm : c.pages child = some m) :
    Yields (maintainChild no i) c (fun _ c' => c' = c.adopt no [child]) := by
  refine Yields.get_bind (fun s hs => ?_)
  rw [hs.node, IxCore.node_of_some hp, hchild]
  refine yields_onlyIf_pos hleaf ?_
  refine (yields_fetchNode hm).then_at ((yields_modifyNode hm).then_do (yields_unpinPage.mono ?_))
  rintro _ _ rfl
  unfold IxCore.adopt IxCore.setNode
  congr 1
  funext w
  by_cases hw : w = child
  · rw [hw, Function.update_self, if_pos (List.mem_singleton_self _), hm]
    rfl
  · rw [Function.update_of_ne hw, if_neg (fun hmem => hw (List.mem_singleton.mp hmem))]

/-- **The loop over `maintain_child`** makes the children adopt. -/
theorem yields_maintainChildren (g : Nat → Nat) (l : List Nat) {c : IxCore κ} {n : IxNode κ}
    (hp : c.pages no = some n) (hleaf : n.isLeaf = false)
    (hl : ∀ i ∈ l, (c.pages (n.rids (g i)).pageNo).isSome) :
    Yields (forM l fun i => maintainChild no (g i)) c
      (fun _ c' => c' = c.adopt no (l.map fun i => (n.rids (g i)).pageNo)) := by
  induction l generalizing c n with
  | nil =>
      rw [List.forM_nil]
      refine Yields.pure ?_
      unfold IxCore.adopt
      simp
  | cons i l ih =>
      obtain ⟨m, hm⟩ := Option.isSome_iff_exists.mp (hl i List.mem_cons_self)
      rw [List.forM_cons]
      refine (yields_maintainChild hp hleaf rfl hm).then_do ?_
      -- the node itself keeps its entries, even if it is its own child
      obtain ⟨n', hp', hleaf', hrids⟩ : ∃ n', (c.adopt no [(n.rids (g i)).pageNo]).pages no = some n'
          ∧ n'.isLeaf = false ∧ n'.rids = n.rids := by
        unfold IxCore.adopt
        dsimp only
        split
        · rw [hp]
          exact ⟨_, rfl, hleaf, rfl⟩
        · exact ⟨n, hp, hleaf, rfl⟩
      refine (ih hp' hleaf' ?_).mono ?_
      · intro k hk
        have hsome := hl k (List.mem_cons_of_mem _ hk)
        rw [hrids]
        unfold IxCore.adopt
        dsimp only
        split
        · rw [Option.isSome_map]
          exact hsome
        · exact hsome
      · rintro _ _ rfl
        rw [hrids]
        unfold IxCore.adopt
        dsimp only
        congr 1
        funext w
        by_cases h1 : w = (n.rids (g i)).pageNo
        · subst h1
          simp only [List.map_cons, List.mem_cons, List.not_mem_nil, true_or, or_false, if_true]
          split
          · rw [Option.map_map]
            rfl
          · rfl
        · simp only [List.map_cons, List.mem_cons, List.not_mem_nil, h1, false_or, or_false,
            if_false]

theorem run_findChild {parent child : Int} {idx : Nat}
    (hi : (s.node parent).findChild child = some idx) :
    (findChild parent child).run s = .ok idx s := by
  unfold findChild
  rw [run_get_bind, hi]
  rfl

variable [LinearOrder κ]

/-- **A round of `maintain_parent`**: the key of the parent's entry is right already, or it is
set and the parent is next. -/
theorem yields_maintainParent {fuel : Nat} {curr y : Int} {m ny : IxNode κ} {rank : Nat}
    {R : PUnit → IxCore κ → Prop} (hm : c.pages curr = some m) (hy : m.parent = y)
    (hne : y ≠ ixNoPage) (hny : c.pages y = some ny) (hrank : ny.findChild curr = some rank)
    (hstop : ny.keys rank = m.keys 0 → R ⟨⟩ c)
    (hgo : ny.keys rank ≠ m.keys 0 →
      Yields (maintainParent fuel y) (c.setNode y (ny.setKey rank (m.keys 0))) R) :
    Yields (maintainParent (fuel + 1) curr) c R := by
  intro s hs
  have hsm : s.node curr = m := hs.node.trans (IxCore.node_of_some hm)
  have hsy : s.node y = ny := hs.node.trans (IxCore.node_of_some hny)
  have hpy : s.store.pages y = some ny := by
    rw [← hs.1] at hny
    exact hny
  -- the handle while the parent is pinned
  let s' : IxIndexHandle κ := { s with store := { s.store with pins := y :: s.store.pins } }
  have hs' : s'.At c := ⟨hs.1, hs.2⟩
  have hfind : (findChild y curr).run s' = .ok rank s' :=
    run_findChild (by rw [hs'.node, IxCore.node_of_some hny, hrank])
  unfold maintainParent
  rw [run_get_bind, hsm, hy, onlyIf_pos hne, bind_ok (run_fetchNode hs.2 hpy)]
  show ∃ a t c', (findChild y curr >>= _).run s' = _ ∧ _
  rw [bind_ok hfind, hsy]
  by_cases heq : ny.keys rank = m.keys 0
  · rw [if_pos heq, run_assertUnpinPage (s := s') List.mem_cons_self]
    exact ⟨_, _, c, rfl, ⟨hs.1, hs.2⟩, hstop heq, [], rfl, by simp⟩
  · rw [if_neg heq, modifyNode, run_modify_bind, bind_ok (run_assertUnpinPage List.mem_cons_self)]
    refine hgo heq _ ⟨?_, hs.2⟩
    rw [hs'.node, IxCore.node_of_some hny, ← hs.1]
    rfl

/-- `maintain_parent` does nothing at the root. -/
theorem yields_maintainParent_root {fuel : Nat} {curr : Int} {m : IxNode κ}
    (hm : c.pages curr = some m) (hroot : m.parent = ixNoPage) :
    Yields (maintainParent (fuel + 1) curr) c (fun _ c' => c' = c) := by
  refine Yields.get_bind (fun s hs => ?_)
  rw [hs.node, IxCore.node_of_some hm]
  exact yields_onlyIf_neg (fun h => h hroot) rfl

end IxIndexHandle

namespace IxCore

variable {κ : Type} [Inhabited κ]

/-- A leaf `z` linked behind `x`, in front of `nx`. -/
def linkLeaf (c : IxCore κ) (x z nx : Int) : IxCore κ :=
  let c₁ := c.setNode z (((c.node z).setNextLeaf nx).setPrevLeaf x)
  let c₂ := if nx ≠ ixNoPage then c₁.setNode nx ((c₁.node nx).setPrevLeaf z) else c₁
  c₂.setNode x ((c₂.node x).setNextLeaf z)

/-- The upper part of a node, as `Split` builds it from a page of zeros. -/
def upperHalf (n : IxNode κ) : IxNode κ :=
  ({ IxNode.blank (κ := κ) with isLeaf := n.isLeaf, numKey := 0, parent := n.parent }).insertPairs 0
    (fun i => n.keys ((n.numKey + 1) / 2 + i)) (fun i => n.rids ((n.numKey + 1) / 2 + i))
    (n.numKey - (n.numKey + 1) / 2)

/-- A node and its new upper half, before leaves or children are told. -/
def halved (c : IxCore κ) (x : Int) : IxCore κ :=
  (c.extend.setNode c.nextPageNo (upperHalf (c.node x))).setNode x
    ((c.node x).setSize (((c.node x).numKey + 1) / 2))

/-- `Split`. -/
def split (c : IxCore κ) (x : Int) : IxCore κ :=
  if (c.node x).isLeaf then (c.halved x).linkLeaf x c.nextPageNo (c.node x).nextLeaf
  else (c.halved x).adopt c.nextPageNo ((upperHalf (c.node x)).entries.map (·.2.pageNo))

/-- A leaf taken out of the list of leaves. -/
def unlinkLeaf (c : IxCore κ) (x : Int) : IxCore κ :=
  let n := c.node x
  let c₁ := c.setNode n.prevLeaf ((c.node n.prevLeaf).setNextLeaf n.nextLeaf)
  c₁.setNode n.nextLeaf ((c₁.node n.nextLeaf).setPrevLeaf n.prevLeaf)

/-- The node of a root with two children. -/
def twoChildren (k : κ) (x : Int) (k' : κ) (z : Int) : IxNode κ :=
  (({ IxNode.blank (κ := κ) with isLeaf := false, numKey := 0, parent := ixNoPage }).insertPair 0 k
    ⟨x, -1⟩).insertPair 1 k' ⟨z, -1⟩

/-- A new root above `x` and `z`. -/
def growRoot (c : IxCore κ) (x : Int) (key : κ) (z : Int) : IxCore κ :=
  let r := c.nextPageNo
  (((c.extend.setNode r (twoChildren ((c.node x).keys 0) x key z)).setNode x
    ((c.node x).setParent r)).setNode z ((c.node z).setParent r)).setRoot r

theorem pages_of_isSome {c : IxCore κ} {no : Int} (h : (c.pages no).isSome) :
    c.pages no = some (c.node no) := by
  obtain ⟨n, hn⟩ := Option.isSome_iff_exists.mp h
  rw [node_of_some hn, hn]

end IxCore

namespace IxIndexHandle

variable {κ : Type} [Inhabited κ] {c : IxCore κ} {x z nx : Int}

theorem yields_linkLeaf (hx : (c.pages x).isSome) (hz : (c.pages z).isSome)
    (hnx : nx ≠ ixNoPage → (c.pages nx).isSome) :
    Yields (linkLeaf x z nx) c (fun _ c' => c' = c.linkLeaf x z nx) := by
  unfold linkLeaf IxCore.linkLeaf
  refine (yields_modifyNode (IxCore.pages_of_isSome hz)).then_do ?_
  dsimp only
  by_cases hne : nx ≠ ixNoPage
  · rw [onlyIf_pos hne, if_pos hne]
    have hnx' : (c.setNode z (((c.node z).setNextLeaf nx).setPrevLeaf x)).pages nx = some _ :=
      IxCore.pages_of_isSome (IxCore.isSome_setNode (hnx hne))
    rw [bind_assoc]
    refine (yields_fetchNode hnx').then_at ?_
    rw [bind_assoc]
    refine (yields_modifyNode hnx').then_do (yields_unpinPage.then_do ?_)
    exact yields_modifyNode (IxCore.pages_of_isSome
      (IxCore.isSome_setNode (IxCore.isSome_setNode hx)))
  · rw [onlyIf_neg hne, if_neg hne, pure_bind]
    exact yields_modifyNode (IxCore.pages_of_isSome (IxCore.isSome_setNode hx))

/-- **`Split`.** -/
theorem yields_split (hb : c.Below) {n : IxNode κ} (hx : c.pages x = some n)
    (hlt : x < c.nextPageNo) (hnext : n.isLeaf = true → (c.pages n.nextLeaf).isSome)
    (hkids : n.isLeaf = false → ∀ i, i < n.numKey → (c.pages (n.rids i).pageNo).isSome) :
    Yields (split x) c (fun a c' => a = (c.nextPageNo : Int) ∧ c' = c.split x) := by
  have hne : x ≠ (c.nextPageNo : Int) := by omega
  have hnode := IxCore.node_of_some hx
  have hxe : c.extend.pages x = some n := (Function.update_of_ne hne ..).trans hx
  have hsome : ∀ w, (c.pages w).isSome → ((c.halved x).pages w).isSome := by
    intro w hw
    refine IxCore.isSome_setNode (IxCore.isSome_setNode ?_)
    by_cases hwz : w = (c.nextPageNo : Int)
    · rw [hwz]
      exact (congrArg _ (Function.update_self ..)).trans rfl
    · exact (congrArg _ (Function.update_of_ne hwz ..)).trans hw
  have hz : (c.halved x).pages c.nextPageNo = some (IxCore.upperHalf n) := by
    rw [IxCore.halved, IxCore.setNode_pages_of_ne (Ne.symm hne), IxCore.setNode_pages_self, hnode]
  unfold split
  refine Yields.get_bind (fun s hs => ?_)
  rw [hs.node, hnode]
  refine (yields_createNode hb).then_at ?_
  refine (yields_modifyNode (Function.update_self ..)).then_do ?_
  refine (yields_modifyNode IxCore.setNode_pages_self).then_do ?_
  rw [IxCore.setNode_setNode]
  refine (yields_modifyNode ((IxCore.setNode_pages_of_ne hne).trans hxe)).then_do ?_
  have hhalved : (c.extend.setNode c.nextPageNo (IxCore.upperHalf n)).setNode x
      (n.setSize ((n.numKey + 1) / 2)) = c.halved x := by
    rw [IxCore.halved, hnode]
  show Yields _ ((c.extend.setNode c.nextPageNo (IxCore.upperHalf n)).setNode x _) _
  rw [hhalved]
  unfold IxCore.split
  rw [hnode]
  -- a leaf is linked into the chain; an inner node gives its children a new parent
  cases hleaf : n.isLeaf with
  | true =>
      refine (yields_linkLeaf ?_ ?_ ?_).then_do (Yields.pure ⟨rfl, rfl⟩)
      · exact hsome x (by rw [hx]; rfl)
      · rw [hz]
        rfl
      · exact fun _ => hsome _ (hnext hleaf)
  | false =>
      have hrids : ∀ i, i < n.numKey - (n.numKey + 1) / 2 →
          (IxCore.upperHalf n).rids i = n.rids ((n.numKey + 1) / 2 + i) := by
        intro i hi
        unfold IxCore.upperHalf IxNode.insertPairs
        dsimp only
        rw [if_neg (by omega), if_pos (by omega), Nat.sub_zero]
      refine (yields_maintainChildren id _ hz hleaf ?_).then_do (Yields.pure ⟨rfl, ?_⟩)
      · intro i hi
        rw [List.mem_range] at hi
        rw [id, hrids i hi]
        exact hsome _ (hkids hleaf _ (by omega))
      · rw [IxNode.entries, List.map_map]
        have hnum : (IxCore.upperHalf n).numKey = n.numKey - (n.numKey + 1) / 2 := Nat.zero_add _
        rw [hnum]
        rfl

/-- **A new root.** -/
theorem yields_growRoot (hb : c.Below) (key : κ) (hx : (c.pages x).isSome)
    (hxlt : x < c.nextPageNo) (hz : (c.pages z).isSome) (hzlt : z < c.nextPageNo) (hxz : x ≠ z) :
    Yields (growRoot x key z) c (fun _ c' => c' = c.growRoot x key z) := by
  have hxr : x ≠ (c.nextPageNo : Int) := by omega
  have hzr : z ≠ (c.nextPageNo : Int) := by omega
  have hpx := IxCore.pages_of_isSome hx
  have hpz := IxCore.pages_of_isSome hz
  unfold growRoot
  refine Yields.get_bind (fun s hs => ?_)
  rw [hs.node]
  refine (yields_createNode hb).then_at ?_
  refine (yields_modifyNode (Function.update_self ..)).then_do ?_
  refine (yields_modifyNode IxCore.setNode_pages_self).then_do ?_
  rw [IxCore.setNode_setNode]
  refine (yields_modifyNode IxCore.setNode_pages_self).then_do ?_
  rw [IxCore.setNode_setNode]
  refine (yields_modifyNode (n := c.node x) ?_).then_do ?_
  · rw [IxCore.setNode_pages_of_ne hxr]
    exact (Function.update_of_ne hxr ..).trans hpx
  refine (yields_modifyNode (n := c.node z) ?_).then_do ?_
  · rw [IxCore.setNode_pages_of_ne (Ne.symm hxz), IxCore.setNode_pages_of_ne hzr]
    exact (Function.update_of_ne hzr ..).trans hpz
  refine yields_modifyHdr.then_do (yields_unpinPage.mono ?_)
  rintro _ _ rfl
  rfl

/-- **A leaf taken out of the list.** -/
theorem yields_eraseLeaf {n : IxNode κ} (hx : c.pages x = some n) (hleaf : n.isLeaf = true)
    (hprev : (c.pages n.prevLeaf).isSome) (hnext : (c.pages n.nextLeaf).isSome) :
    Yields (eraseLeaf x) c (fun _ c' => c' = c.unlinkLeaf x) := by
  have hnode := IxCore.node_of_some hx
  have hprev' := IxCore.pages_of_isSome hprev
  unfold eraseLeaf IxCore.unlinkLeaf
  refine Yields.get_bind (fun s hs => ?_)
  rw [hs.node, hnode, if_neg (by rw [hleaf]; simp)]
  refine (yields_fetchNode hprev').then_at ?_
  refine (yields_modifyNode hprev').then_do (yields_unpinPage.then_do ?_)
  have hnext' : (c.setNode n.prevLeaf ((c.node n.prevLeaf).setNextLeaf n.nextLeaf)).pages n.nextLeaf
      = some _ := IxCore.pages_of_isSome (IxCore.isSome_setNode hnext)
  refine (yields_fetchNode hnext').then_at ?_
  refine (yields_modifyNode hnext').then_do (yields_unpinPage.mono ?_)
  rintro _ _ rfl
  rfl

end IxIndexHandle

end Rucbase
