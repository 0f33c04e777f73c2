import Rucbase.Lib.Holding
import Rucbase.Lib.Run
import Rucbase.Index.IxMirror
import Rucbase.Index.IxCalls

/-!
# Page numbers of an index, from session to session

The counter that `CreateNode` gets its page numbers from is `fd2pageno_[fd]`, in the memory of the
`DiskManager` and not in the file. `create_index` sets it, `open_index` adds one to it, and nothing
looks at how many pages the file has. As long as it is past all of them when the file is opened, what
`CreateNode` gets is a page the file does not have yet.
-/

namespace Rucbase

open Lib

namespace IxCore

variable {κ : Type}

/-- A node of the tree that the file has a page for. -/
def LiveNode (c : IxCore κ) (x : Int) : Prop := c.InTree x ∧ (c.pages x).isSome

/-- What `CreateNode` got is none of the header pages and no node of the tree. -/
def GotFresh (e : Int × IxCore κ) : Prop :=
  e.1 ≠ 0 ∧ e.1 ≠ ixLeafHeaderPage ∧ ∀ x, e.2.LiveNode x → e.1 ≠ x

end IxCore

namespace IxIndexHandle

variable {κ α : Type}

/-- The file has page `no`. -/
def HasPage (s : IxIndexHandle κ) (no : Int) : Prop := (s.store.pages no).isSome

/-- The counter is past every page, and `CreateNode` has got fresh ones. -/
structure Numbered (s : IxIndexHandle κ) : Prop where
  leafHeader : s.HasPage ixLeafHeaderPage
  past : ∀ no, s.HasPage no → no < s.store.nextPageNo
  fresh : ∀ e ∈ s.created, IxCore.GotFresh e

/-- A function that is called with the pages `l`: it keeps the numbering, and the pages `q` it
returns are there. -/
abbrev Allocs (l : List Int) (x : IxM κ α) (q : α → List Int) : Prop :=
  Sustains Numbered HasPage l x q

variable {l : List Int} {no : Int} {s t : IxIndexHandle κ}

/-- No page is new and none is gone. -/
theorem Numbered.same (h : Numbered s) (hpages : ∀ p, t.HasPage p ↔ s.HasPage p)
    (hnext : t.store.nextPageNo = s.store.nextPageNo) (hcreated : t.created = s.created) :
    Numbered t := by
  refine ⟨(hpages _).mpr h.leafHeader, fun p hp => ?_, fun e he => h.fresh e (hcreated ▸ he)⟩
  rw [hnext]
  exact h.past p ((hpages p).mp hp)

/-! ## The small calls -/

theorem allocs_modify {g : IxIndexHandle κ → IxIndexHandle κ}
    (hg : ∀ s, (∀ p ∈ l, s.HasPage p) → (∀ p, (g s).HasPage p ↔ s.HasPage p)
      ∧ (g s).store.nextPageNo = s.store.nextPageNo ∧ (g s).created = s.created) :
    Allocs l (modify g : IxM κ Unit) fun _ => [] := by
  refine .modify fun s hs hl => ?_
  obtain ⟨hpages, hnext, hcreated⟩ := hg s hl
  exact ⟨hs.same hpages hnext hcreated, fun p => (hpages p).mpr, by simp⟩

theorem allocs_modifyNode [Inhabited κ] {g : IxNode κ → IxNode κ} (hno : no ∈ l) :
    Allocs l (modifyNode no g) fun _ => [] := by
  refine allocs_modify fun s hl => ⟨fun p => ?_, rfl, rfl⟩
  by_cases hp : p = no
  · rw [hp]
    refine iff_of_true ?_ (hl no hno)
    show (Function.update s.store.pages no _ no).isSome
    rw [Function.update_self]
    rfl
  · show (Function.update s.store.pages no _ p).isSome ↔ _
    rw [Function.update_of_ne hp]
    rfl

theorem allocs_modifyHdr {g : IxFileHdr → IxFileHdr} :
    Allocs l (modifyHdr g : IxM κ Unit) fun _ => [] :=
  allocs_modify fun _ _ => ⟨fun _ => Iff.rfl, rfl, rfl⟩

theorem allocs_deletePage : Allocs l
    (modify fun s : IxIndexHandle κ => { s with store := s.store.deletePage no }) fun _ => [] :=
  allocs_modify fun _ _ => ⟨fun _ => Iff.rfl, rfl, rfl⟩

theorem allocs_unpinPage : Allocs l (unpinPage no : IxM κ Unit) fun _ => [] :=
  allocs_modify fun _ _ => ⟨fun _ => Iff.rfl, rfl, rfl⟩

theorem allocs_assertUnpinPage : Allocs l (assertUnpinPage no : IxM κ Unit) fun _ => [] :=
  .get_bind fun _ => .ite (fun _ => allocs_unpinPage) fun _ => .throw

theorem allocs_fetchNode : Allocs l (fetchNode no : IxM κ Int) fun a => [a] := by
  intro s hs _
  unfold fetchNode
  rw [run_get_bind]
  cases hfetch : s.store.fetchPage no with
  | error e => exact hs
  | ok r =>
      cases r with
      | none => exact hs
      | some t =>
          obtain ⟨hsome, rfl⟩ := PageStore.of_fetchPage hfetch
          refine ⟨hs.same (fun _ => Iff.rfl) rfl rfl, fun _ hp => hp, fun p hp => ?_⟩
          rw [List.mem_singleton.mp hp]
          exact hsome

variable [Inhabited κ]

/-- **`CreateNode` gets a page that the file does not have.** -/
theorem allocs_createNode : Allocs l (createNode : IxM κ Int) fun a => [a] := by
  refine allocs_modifyHdr.bind fun _ => ?_
  intro s hs _
  rw [run_get_bind]
  cases hnew : s.store.newPage .blank with
  | none => exact hs
  | some r =>
      obtain ⟨no, t⟩ := r
      obtain ⟨rfl, rfl⟩ := PageStore.of_newPage hnew
      have hkept : ∀ p, s.HasPage p →
          (Function.update s.store.pages s.store.nextPageNo (some IxNode.blank) p).isSome := by
        intro p hp
        rw [Function.update_of_ne (ne_of_lt (hs.past p hp))]
        exact hp
      refine ⟨⟨hkept _ hs.leafHeader, fun p hp => ?_, fun e he => ?_⟩, hkept, fun p hp => ?_⟩
      · show p < ((s.store.nextPageNo + 1 : Nat) : Int)
        by_cases heq : p = s.store.nextPageNo
        · omega
        · have hold : s.HasPage p := by
            have hnew' : (Function.update s.store.pages s.store.nextPageNo (some .blank) p).isSome := hp
            rwa [Function.update_of_ne heq] at hnew'
          have := hs.past p hold
          omega
      · rcases List.mem_cons.mp he with rfl | he
        · have hheader : ixLeafHeaderPage < s.store.nextPageNo := hs.past _ hs.leafHeader
          unfold ixLeafHeaderPage at hheader
          refine ⟨?_, ne_of_gt hheader, fun x hx => ne_of_gt (hs.past x hx.2)⟩
          dsimp only
          omega
        · exact hs.fresh e he
      · rw [List.mem_singleton.mp hp]
        show (Function.update s.store.pages s.store.nextPageNo _ _).isSome
        rw [Function.update_self]
        rfl

theorem allocs_findChild {parent child : Int} :
    Allocs l (findChild parent child : IxM κ Nat) fun _ => [] := by
  refine .get_bind fun s => ?_
  cases (s.node parent).findChild child with
  | some idx => exact .pure (by simp)
  | none => exact .throw

/-! ## Parents and leaf links -/

theorem allocs_maintainChild {node : Int} {i : Nat} :
    Allocs l (maintainChild node i : IxM κ Unit) fun _ => [] := by
  refine .get_bind fun s => .onlyIf (allocs_fetchNode.bind fun child => ?_)
  exact (allocs_modifyNode List.mem_cons_self).bind fun _ => allocs_unpinPage

theorem allocs_maintainParent [LinearOrder κ] (fuel : Nat) (curr : Int) :
    Allocs l (maintainParent fuel curr : IxM κ Unit) fun _ => [] := by
  induction fuel generalizing curr l with
  | zero => exact .throw
  | succ fuel ih =>
      refine .get_bind fun s => .onlyIf (allocs_fetchNode.bind fun parent => ?_)
      refine allocs_findChild.bind fun rank => .ite (fun _ => allocs_assertUnpinPage) fun _ => ?_
      refine (allocs_modifyNode List.mem_cons_self).bind fun _ => ?_
      exact allocs_assertUnpinPage.bind fun _ => ih parent

theorem allocs_eraseLeaf {leaf : Int} : Allocs l (eraseLeaf leaf : IxM κ Unit) fun _ => [] := by
  refine .get_bind fun s => .ite (fun _ => .throw) fun _ => ?_
  refine allocs_fetchNode.bind fun prev => ?_
  refine (allocs_modifyNode List.mem_cons_self).bind fun _ => ?_
  refine allocs_unpinPage.bind fun _ => allocs_fetchNode.bind fun next => ?_
  exact (allocs_modifyNode List.mem_cons_self).bind fun _ => allocs_unpinPage

/-! ## Search -/

theorem allocs_descend [LinearOrder κ] (key : κ) (fuel : Nat) {node : Int} (hnode : node ∈ l) :
    Allocs l (descend key fuel node) fun a => [a] := by
  induction fuel generalizing node l with
  | zero => exact .throw
  | succ fuel ih =>
      refine .get_bind fun s => .ite (fun _ => .pure (by simpa using hnode)) fun _ => ?_
      exact allocs_unpinPage.bind fun _ => allocs_fetchNode.bind fun child => ih List.mem_cons_self

theorem allocs_findLeafPage [LinearOrder κ] (fuel : Nat) (key : κ) :
    Allocs l (findLeafPage fuel key) fun a => [a] :=
  .get_bind fun _ => allocs_fetchNode.bind fun _ => allocs_descend key fuel List.mem_cons_self

theorem allocs_getValue [LinearOrder κ] (fuel : Nat) (key : κ) : Allocs l
    (getValue fuel key) fun _ => [] := by
  refine (allocs_findLeafPage fuel key).bind fun leaf => .get_bind fun s => ?_
  exact allocs_unpinPage.bind fun _ => .pure (by simp)

/-! ## Insertion -/

theorem allocs_linkLeaf {node newNode next : Int} (hnode : node ∈ l) (hnew : newNode ∈ l) :
    Allocs l (linkLeaf node newNode next : IxM κ Unit) fun _ => [] := by
  refine (allocs_modifyNode hnew).bind fun _ => ?_
  refine Sustains.bind (.onlyIf (allocs_fetchNode.bind fun nxt => ?_)) fun _ => allocs_modifyNode hnode
  exact (allocs_modifyNode List.mem_cons_self).bind fun _ => allocs_unpinPage

theorem allocs_split {node : Int} (hnode : node ∈ l) :
    Allocs l (split node : IxM κ Int) fun a => [a] := by
  refine .get_bind fun s => allocs_createNode.bind fun newNode => ?_
  have hnew : newNode ∈ newNode :: l := List.mem_cons_self
  have hold : node ∈ newNode :: l := List.mem_cons_of_mem _ hnode
  refine (allocs_modifyNode hnew).bind fun _ => (allocs_modifyNode hnew).bind fun _ => ?_
  refine (allocs_modifyNode hold).bind fun _ => .ite (fun _ => ?_) (fun _ => ?_)
  · exact (allocs_linkLeaf hold hnew).bind fun _ => .pure (by simp)
  · exact (Sustains.forM (fun i => allocs_maintainChild) _).bind fun _ => .pure (by simp)

theorem allocs_growRoot {oldNode newNode : Int} {key : κ} (hold : oldNode ∈ l) (hnew : newNode ∈ l) :
    Allocs l (growRoot oldNode key newNode) fun _ => [] := by
  refine .get_bind fun s => allocs_createNode.bind fun root => ?_
  have hroot : root ∈ root :: l := List.mem_cons_self
  refine (allocs_modifyNode hroot).bind fun _ => (allocs_modifyNode hroot).bind fun _ => ?_
  refine (allocs_modifyNode hroot).bind fun _ => ?_
  refine (allocs_modifyNode (List.mem_cons_of_mem _ hold)).bind fun _ => ?_
  refine (allocs_modifyNode (List.mem_cons_of_mem _ hnew)).bind fun _ => ?_
  exact allocs_modifyHdr.bind fun _ => allocs_unpinPage

theorem allocs_insertIntoParent (fuel : Nat) {oldNode newNode : Int} {key : κ} (hold : oldNode ∈ l)
    (hnew : newNode ∈ l) : Allocs l (insertIntoParent fuel oldNode key newNode) fun _ => [] := by
  induction fuel generalizing oldNode newNode key l with
  | zero => exact .throw
  | succ fuel ih =>
      refine .get_bind fun s => .ite (fun _ => allocs_growRoot hold hnew) fun _ => ?_
      refine allocs_fetchNode.bind fun parent => allocs_findChild.bind fun idx => ?_
      have hparent : parent ∈ parent :: l := List.mem_cons_self
      refine (allocs_modifyNode hparent).bind fun _ => ?_
      refine (allocs_modifyNode (List.mem_cons_of_mem _ hnew)).bind fun _ => .get_bind fun t => ?_
      refine (Sustains.onlyIf ?_).bind fun _ => allocs_unpinPage
      -- the parent is full
      refine (allocs_split hparent).bind fun newParent => .get_bind fun u => ?_
      refine (ih (List.mem_cons_of_mem _ hparent) List.mem_cons_self).bind fun _ => ?_
      exact allocs_unpinPage

theorem allocs_insertIntoLeaf [LinearOrder κ] (fuel : Nat) {leaf : Int} {key : κ} {value : Rid}
    (hleaf : leaf ∈ l) :
    Allocs l (insertIntoLeaf fuel leaf key value) fun _ => [] := by
  refine (allocs_modifyNode hleaf).bind fun _ => .get_bind fun s => ?_
  refine (Sustains.onlyIf ?_).bind fun _ => allocs_unpinPage.bind fun _ => .pure (by simp)
  refine (allocs_split hleaf).bind fun newLeaf => .get_bind fun t => ?_
  refine (allocs_insertIntoParent fuel (List.mem_cons_of_mem _ hleaf) List.mem_cons_self).bind
    fun _ => ?_
  exact (Sustains.onlyIf allocs_modifyHdr).bind fun _ => allocs_unpinPage

theorem allocs_insertEntry [LinearOrder κ] (fuel : Nat) (key : κ) (value : Rid) :
    Allocs l (insertEntry fuel key value) fun _ => [] :=
  (allocs_findLeafPage fuel key).bind fun _ => allocs_insertIntoLeaf fuel List.mem_cons_self

/-! ## Deletion -/

theorem allocs_adjustRoot {oldRoot : Int} (hold : oldRoot ∈ l) :
    Allocs l (adjustRoot oldRoot : IxM κ Bool) fun _ => [] := by
  refine .get_bind fun s => .ite (fun _ => ?_) fun _ => .ite (fun _ => ?_) fun _ => .pure (by simp)
  · refine (allocs_modifyNode hold).bind fun _ => allocs_fetchNode.bind fun root => ?_
    refine (allocs_modifyNode List.mem_cons_self).bind fun _ => allocs_unpinPage.bind fun _ => ?_
    exact allocs_modifyHdr.bind fun _ => allocs_modifyHdr.bind fun _ => .pure (by simp)
  · exact allocs_modifyHdr.bind fun _ => allocs_modifyHdr.bind fun _ => .pure (by simp)

theorem allocs_redistribute [LinearOrder κ] (fuel : Nat) {neighbor node : Int} {index : Nat}
    (hnb : neighbor ∈ l)
    (hnode : node ∈ l) :
    Allocs l (redistribute fuel neighbor node index : IxM κ Unit) fun _ => [] := by
  refine .get_bind fun s => .ite (fun _ => ?_) fun _ => ?_
  · refine (allocs_modifyNode hnode).bind fun _ => (allocs_modifyNode hnb).bind fun _ => ?_
    exact (allocs_maintainParent fuel _).bind fun _ => allocs_maintainChild
  · refine (allocs_modifyNode hnode).bind fun _ => (allocs_modifyNode hnb).bind fun _ => ?_
    exact (allocs_maintainParent fuel _).bind fun _ => allocs_maintainChild

theorem allocs_coalesce {again : Int → IxM κ Bool} {neighbor node parent : Int} {index : Nat}
    (hnb : neighbor ∈ l) (hnode : node ∈ l) (hparent : parent ∈ l)
    (hagain : Allocs l (again parent) fun _ => []) :
    Allocs l (coalesce again neighbor node parent index) fun _ => [] := by
  unfold coalesce
  extract_lets left right
  have hleft : left ∈ l := by
    by_cases h0 : index = 0
    · simpa only [left, if_pos h0] using hnode
    · simpa only [left, if_neg h0] using hnb
  refine .get_bind fun s => (allocs_modifyNode hleft).bind fun _ => ?_
  refine (Sustains.onlyIf (.forM (fun i => allocs_maintainChild) _)).bind fun _ => ?_
  refine (Sustains.onlyIf ((Sustains.onlyIf allocs_modifyHdr).bind fun _ => allocs_eraseLeaf)).bind
    fun _ => ?_
  refine allocs_findChild.bind fun idx => (allocs_modifyNode hparent).bind fun _ => ?_
  refine allocs_modifyHdr.bind fun _ => allocs_unpinPage.bind fun _ => ?_
  exact allocs_deletePage.bind fun _ => allocs_unpinPage.bind fun _ => hagain

variable [LinearOrder κ]

theorem allocs_coalesceOrRedistribute (fuel : Nat) {node : Int} (hnode : node ∈ l) :
    Allocs l (coalesceOrRedistribute fuel node : IxM κ Bool) fun _ => [] := by
  induction fuel generalizing node l with
  | zero => exact .throw
  | succ fuel ih =>
      refine .get_bind fun s => .ite (fun _ => ?_) fun _ => .ite (fun _ => ?_) fun _ => ?_
      · exact allocs_unpinPage.bind fun _ => .pure (by simp)
      · refine (allocs_adjustRoot hnode).bind fun _ => ?_
        exact allocs_unpinPage.bind fun _ => .pure (by simp)
      · refine allocs_fetchNode.bind fun parent => allocs_findChild.bind fun idx => ?_
        refine allocs_fetchNode.bind fun neighbor => ?_
        have hnb : neighbor ∈ neighbor :: parent :: l := List.mem_cons_self
        have hparent : parent ∈ neighbor :: parent :: l :=
          List.mem_cons_of_mem _ List.mem_cons_self
        have hself : node ∈ neighbor :: parent :: l :=
          List.mem_cons_of_mem _ (List.mem_cons_of_mem _ hnode)
        refine .ite (fun _ => ?_) fun _ => ?_
        · refine (allocs_redistribute fuel hnb hself).bind fun _ => ?_
          refine allocs_unpinPage.bind fun _ => allocs_unpinPage.bind fun _ => ?_
          exact allocs_unpinPage.bind fun _ => .pure (by simp)
        · exact allocs_coalesce hnb hself hparent (ih hparent)

theorem allocs_removeFromLeaf (fuel : Nat) {leaf : Int} {key : κ} (hleaf : leaf ∈ l) :
    Allocs l (removeFromLeaf fuel leaf key) fun _ => [] := by
  refine .get_bind fun s => (allocs_modifyNode hleaf).bind fun _ => .get_bind fun t => ?_
  refine .ite (fun _ => allocs_unpinPage.bind fun _ => .pure (by simp)) fun _ => ?_
  exact (allocs_coalesceOrRedistribute fuel hleaf).bind fun _ => .pure (by simp)

theorem allocs_deleteEntry (fuel : Nat) (key : κ) : Allocs l (deleteEntry fuel key) fun _ => [] :=
  (allocs_findLeafPage fuel key).bind fun _ => allocs_removeFromLeaf fuel List.mem_cons_self

end IxIndexHandle

end Rucbase
