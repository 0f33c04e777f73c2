import Rucbase.Lib.EState
import Rucbase.Storage.PageStore
import Rucbase.Index.IxManager
import Rucbase.Index.IxNode

/-!
# `IxIndexHandle`

`index/ix_index_handle.cpp`, function by function, over a page store. A node handle is the
number of the page it points to. The loops and recursions that follow pointers from page to
page take a number of rounds as their first argument, since nothing in the code bounds them;
a call returns if it does so for some number of rounds.
-/

namespace Rucbase

open Lib

/-- What there is of an index, apart from pins: the header in memory, the pages, and the
number the next page will get. -/
structure IxCore (κ : Type) where
  hdr : IxFileHdr
  pages : Int → Option (IxNode κ)
  nextPageNo : Nat

/-- An open index. The last two fields are not part of the program, they are records of it,
newest first: what `CreateNode` got, with the index at that moment, and what `UnpinPage` was
called on, with the pins at that moment. -/
structure IxIndexHandle (κ : Type) where
  fileHdr : IxFileHdr
  store : PageStore (IxNode κ)
  created : List (Int × IxCore κ)
  unpinned : List (Int × List Int)

/-- A position in the leaves. -/
structure Iid where
  pageNo : Int
  slotNo : Nat
deriving DecidableEq, Repr

abbrev IxM (κ : Type) := EStateM RedBaseError (IxIndexHandle κ)

namespace IxFileHdr

/-- `GetMaxSize`. -/
def maxSize (h : IxFileHdr) : Int := h.btreeOrder + 1

/-- `GetMinSize`. -/
def minSize (h : IxFileHdr) : Int := h.maxSize / 2

end IxFileHdr

namespace IxNode

variable {κ : Type}

/-- A page of zeros, as `NewPage` returns it. `default` is the key of zero bytes. -/
def blank [Inhabited κ] : IxNode κ := ⟨0, 0, false, 0, 0, fun _ => default, fun _ => ⟨0, 0⟩⟩

/-- `SetSize`. -/
def setSize (n : IxNode κ) (size : Nat) : IxNode κ := { n with numKey := size }

/-- `SetParentPageNo`. -/
def setParent (n : IxNode κ) (parent : Int) : IxNode κ := { n with parent := parent }

/-- `SetPrevLeaf`. -/
def setPrevLeaf (n : IxNode κ) (no : Int) : IxNode κ := { n with prevLeaf := no }

/-- `SetNextLeaf`. -/
def setNextLeaf (n : IxNode κ) (no : Int) : IxNode κ := { n with nextLeaf := no }

end IxNode

namespace IxIndexHandle

variable {κ : Type} [LinearOrder κ] [Inhabited κ]

/-- The handle without its pins. -/
def core (s : IxIndexHandle κ) : IxCore κ := ⟨s.fileHdr, s.store.pages, s.store.nextPageNo⟩

/-- The node behind a handle. -/
def node (s : IxIndexHandle κ) (no : Int) : IxNode κ := (s.store.pages no).getD .blank

/-- Change the node behind a handle. -/
def modifyNode (no : Int) (f : IxNode κ → IxNode κ) : IxM κ Unit :=
  modify fun s => { s with store := s.store.setPage no (f (s.node no)) }

/-- Change the file header in memory. -/
def modifyHdr (f : IxFileHdr → IxFileHdr) : IxM κ Unit :=
  modify fun s => { s with fileHdr := f s.fileHdr }

/-- `buffer_pool_manager_->UnpinPage`. -/
def unpinPage (no : Int) : IxM κ Unit :=
  modify fun s =>
    { s with store := s.store.unpinPage no, unpinned := (no, s.store.pins) :: s.unpinned }

/-- `assert(buffer_pool_manager_->UnpinPage(..))`. -/
def assertUnpinPage (no : Int) : IxM κ Unit := do
  let s ← get
  if no ∈ s.store.pins then unpinPage no else throw .assertionFailure

/-- `FetchNode`. A page that the pool has no frame for is used all the same. -/
def fetchNode (pageNo : Int) : IxM κ Int := do
  let s ← get
  match s.store.fetchPage pageNo with
  | .error e => throw e
  | .ok none => throw .undefinedBehaviour
  | .ok (some t) =>
      set { s with store := t }
      return pageNo

/-- `CreateNode`. -/
def createNode : IxM κ Int := do
  modifyHdr fun h => { h with numPages := h.numPages + 1 }
  let s ← get
  match s.store.newPage .blank with
  | none => throw .undefinedBehaviour
  | some (no, t) =>
      set { s with store := t, created := (no, s.core) :: s.created }
      return no

/-- `release_node_handle`. -/
def releaseNodeHandle : IxM κ Unit := modifyHdr fun h => { h with numPages := h.numPages - 1 }

/-- `find_child`, called on the node `parent`. -/
def findChild (parent child : Int) : IxM κ Nat := do
  let s ← get
  match (s.node parent).findChild child with
  | some idx => return idx
  | none => throw .assertionFailure

/-- `maintain_child`. -/
def maintainChild (node : Int) (childIdx : Nat) : IxM κ Unit := do
  let s ← get
  onlyIf ((s.node node).isLeaf = false) do
    let child ← fetchNode ((s.node node).rids childIdx).pageNo
    modifyNode child (·.setParent node)
    unpinPage child

/-- `maintain_parent`. -/
def maintainParent : Nat → Int → IxM κ Unit
  | 0, _ => throw .outOfFuel
  | fuel + 1, curr => do
      let s ← get
      onlyIf ((s.node curr).parent ≠ ixNoPage) do
        let parent ← fetchNode (s.node curr).parent
        let rank ← findChild parent curr
        if (s.node parent).keys rank = (s.node curr).keys 0 then
          assertUnpinPage parent
        else
          modifyNode parent (·.setKey rank ((s.node curr).keys 0))
          assertUnpinPage parent
          maintainParent fuel parent

/-- `erase_leaf`. -/
def eraseLeaf (leaf : Int) : IxM κ Unit := do
  let s ← get
  if (s.node leaf).isLeaf = false then
    throw .assertionFailure
  else
    let prev ← fetchNode (s.node leaf).prevLeaf
    modifyNode prev (·.setNextLeaf (s.node leaf).nextLeaf)
    unpinPage prev
    let next ← fetchNode (s.node leaf).nextLeaf
    modifyNode next (·.setPrevLeaf (s.node leaf).prevLeaf)
    unpinPage next

/-! ## Search -/

/-- The loop of `FindLeafPage`. -/
def descend (key : κ) : Nat → Int → IxM κ Int
  | 0, _ => throw .outOfFuel
  | fuel + 1, node => do
      let s ← get
      if (s.node node).isLeaf then
        return node
      else
        unpinPage node
        let child ← fetchNode ((s.node node).internalLookup key)
        descend key fuel child

/-- `FindLeafPage`. -/
def findLeafPage (fuel : Nat) (key : κ) : IxM κ Int := do
  let s ← get
  let node ← fetchNode s.fileHdr.rootPage
  descend key fuel node

/-- `GetValue`: the rid found, if any. -/
def getValue (fuel : Nat) (key : κ) : IxM κ (Option Rid) := do
  let leaf ← findLeafPage fuel key
  let s ← get
  let value := (s.node leaf).leafLookup key
  unpinPage leaf
  return value

/-! ## Insertion -/

/-- The part of `Split` that links a new leaf behind `node`. -/
def linkLeaf (node newNode : Int) (nextLeaf : Int) : IxM κ Unit := do
  modifyNode newNode fun m => (m.setNextLeaf nextLeaf).setPrevLeaf node
  onlyIf (nextLeaf ≠ ixNoPage) do
    let next ← fetchNode nextLeaf
    modifyNode next (·.setPrevLeaf newNode)
    unpinPage next
  modifyNode node (·.setNextLeaf newNode)

/-- `Split`. -/
def split (node : Int) : IxM κ Int := do
  let s ← get
  let n := s.node node
  let newNode ← createNode
  modifyNode newNode fun m => { m with isLeaf := n.isLeaf, numKey := 0, parent := n.parent }
  let mid := (n.numKey + 1) / 2
  let rightSize := n.numKey - mid
  modifyNode newNode
    (·.insertPairs 0 (fun i => n.keys (mid + i)) (fun i => n.rids (mid + i)) rightSize)
  modifyNode node (·.setSize mid)
  if n.isLeaf then
    linkLeaf node newNode n.nextLeaf
  else
    forM (List.range rightSize) (maintainChild newNode)
  return newNode

/-- The branch of `InsertIntoParent` for a root: a new root above it. -/
def growRoot (oldNode : Int) (key : κ) (newNode : Int) : IxM κ Unit := do
  let s ← get
  let newRoot ← createNode
  modifyNode newRoot fun m => { m with isLeaf := false, numKey := 0, parent := ixNoPage }
  modifyNode newRoot (·.insertPair 0 ((s.node oldNode).keys 0) ⟨oldNode, -1⟩)
  modifyNode newRoot (·.insertPair 1 key ⟨newNode, -1⟩)
  modifyNode oldNode (·.setParent newRoot)
  modifyNode newNode (·.setParent newRoot)
  modifyHdr fun h => { h with rootPage := newRoot }
  unpinPage newRoot

/-- `InsertIntoParent`. -/
def insertIntoParent : Nat → Int → κ → Int → IxM κ Unit
  | 0, _, _, _ => throw .outOfFuel
  | fuel + 1, oldNode, key, newNode => do
      let s ← get
      if (s.node oldNode).parent = ixNoPage then
        growRoot oldNode key newNode
      else
        let parent ← fetchNode (s.node oldNode).parent
        let idx ← findChild parent oldNode
        modifyNode parent (·.insertPair (idx + 1) key ⟨newNode, -1⟩)
        modifyNode newNode (·.setParent parent)
        let s ← get
        onlyIf ((s.node parent).numKey = s.fileHdr.maxSize) do
          let newParent ← split parent
          let s ← get
          insertIntoParent fuel parent ((s.node newParent).keys 0) newParent
          unpinPage newParent
        unpinPage parent

/-- The steps of `insert_entry` from `leaf->Insert` on. -/
def insertIntoLeaf (fuel : Nat) (leaf : Int) (key : κ) (value : Rid) : IxM κ Bool := do
  modifyNode leaf (·.insert key value)
  let s ← get
  onlyIf ((s.node leaf).numKey = s.fileHdr.maxSize) do
    let newLeaf ← split leaf
    let t ← get
    insertIntoParent fuel leaf ((t.node newLeaf).keys 0) newLeaf
    onlyIf (leaf = s.fileHdr.lastLeaf) (modifyHdr fun h => { h with lastLeaf := newLeaf })
    unpinPage newLeaf
  unpinPage leaf
  return true

/-- `insert_entry`. -/
def insertEntry (fuel : Nat) (key : κ) (value : Rid) : IxM κ Bool := do
  let leaf ← findLeafPage fuel key
  insertIntoLeaf fuel leaf key value

/-! ## Deletion -/

/-- `AdjustRoot`. -/
def adjustRoot (oldRoot : Int) : IxM κ Bool := do
  let s ← get
  let n := s.node oldRoot
  if n.isLeaf = false ∧ n.numKey = 1 then
    modifyNode oldRoot (·.erasePair 0)
    let newRoot ← fetchNode (n.rids 0).pageNo
    modifyNode newRoot (·.setParent ixNoPage)
    unpinPage newRoot
    modifyHdr fun h => { h with rootPage := newRoot }
    releaseNodeHandle
    return true
  else if n.isLeaf = true ∧ n.numKey = 0 then
    modifyHdr fun h => { h with rootPage := ixNoPage }
    releaseNodeHandle
    return true
  else
    return false

/-- `Redistribute`. -/
def redistribute (fuel : Nat) (neighbor node : Int) (index : Nat) : IxM κ Unit := do
  let s ← get
  let nb := s.node neighbor
  let size := (s.node node).numKey
  if index = 0 then
    modifyNode node (·.insertPair size (nb.keys 0) (nb.rids 0))
    modifyNode neighbor (·.erasePair 0)
    maintainParent fuel neighbor
    maintainChild node size
  else
    let last := nb.numKey - 1
    modifyNode node (·.insertPair 0 (nb.keys last) (nb.rids last))
    modifyNode neighbor (·.erasePair last)
    maintainParent fuel node
    maintainChild node 0

/-- `Coalesce`; `again` is `CoalesceOrRedistribute`, called on the parent. -/
def coalesce (again : Int → IxM κ Bool) (neighbor node parent : Int) (index : Nat) :
    IxM κ Bool := do
  let left := if index = 0 then node else neighbor
  let right := if index = 0 then neighbor else node
  let s ← get
  let r := s.node right
  let leftSize := (s.node left).numKey
  modifyNode left (·.insertPairs leftSize r.keys r.rids r.numKey)
  onlyIf (r.isLeaf = false)
    (forM (List.range r.numKey) fun i => maintainChild left (leftSize + i))
  onlyIf (r.isLeaf = true) do
    onlyIf (right = s.fileHdr.lastLeaf) (modifyHdr fun h => { h with lastLeaf := left })
    eraseLeaf right
  let rightIdx ← findChild parent right
  modifyNode parent (·.erasePair rightIdx)
  releaseNodeHandle
  unpinPage right
  modify fun s => { s with store := s.store.deletePage right }
  unpinPage left
  again parent

/-- `CoalesceOrRedistribute`. -/
def coalesceOrRedistribute : Nat → Int → IxM κ Bool
  | 0, _ => throw .outOfFuel
  | fuel + 1, node => do
      let s ← get
      let n := s.node node
      if n.numKey ≥ s.fileHdr.minSize then
        unpinPage node
        return false
      else if n.parent = ixNoPage then
        let deleted ← adjustRoot node
        unpinPage node
        return deleted
      else
        let parent ← fetchNode n.parent
        let idx ← findChild parent node
        let neighbor ← fetchNode
          ((s.node parent).rids (if idx > 0 then idx - 1 else idx + 1)).pageNo
        if n.numKey + (s.node neighbor).numKey ≥ s.fileHdr.minSize * 2 then
          redistribute fuel neighbor node idx
          unpinPage node
          unpinPage neighbor
          unpinPage parent
          return false
        else
          coalesce (coalesceOrRedistribute fuel) neighbor node parent idx

/-- The steps of `delete_entry` from `leaf->Remove` on. -/
def removeFromLeaf (fuel : Nat) (leaf : Int) (key : κ) : IxM κ Bool := do
  let s ← get
  modifyNode leaf (·.remove key)
  let t ← get
  if (t.node leaf).numKey = (s.node leaf).numKey then
    unpinPage leaf
    return false
  else
    let _ ← coalesceOrRedistribute fuel leaf
    return true

/-- `delete_entry`. -/
def deleteEntry (fuel : Nat) (key : κ) : IxM κ Bool := do
  let leaf ← findLeafPage fuel key
  removeFromLeaf fuel leaf key

/-! ## Positions -/

/-- `get_rid`. -/
def getRid (iid : Iid) : IxM κ Rid := do
  let node ← fetchNode iid.pageNo
  let s ← get
  if iid.slotNo ≥ (s.node node).numKey then
    throw .indexEntryNotFoundError
  else
    unpinPage node
    return (s.node node).rids iid.slotNo

/-- `leaf_begin`. -/
def leafBegin : IxM κ Iid := do
  let s ← get
  return ⟨s.fileHdr.firstLeaf, 0⟩

/-- `leaf_end`. -/
def leafEnd : IxM κ Iid := do
  let s ← get
  let node ← fetchNode s.fileHdr.lastLeaf
  let t ← get
  unpinPage node
  return ⟨s.fileHdr.lastLeaf, (t.node node).numKey⟩

/-- `lower_bound`, with `find` for `FindLeafPage`. -/
def lowerBoundVia (find : κ → IxM κ Int) (key : κ) : IxM κ Iid := do
  let node ← find key
  let s ← get
  unpinPage node
  return ⟨node, (s.node node).lowerBound key⟩

/-- `upper_bound`, with `find` for `FindLeafPage`. -/
def upperBoundVia (find : κ → IxM κ Int) (key : κ) : IxM κ Iid := do
  let node ← find key
  let s ← get
  let keyIdx := (s.node node).upperBound key
  let iid ← if keyIdx = (s.node node).numKey then leafEnd else pure ⟨node, keyIdx⟩
  unpinPage node
  return iid

/-- `lower_bound`. -/
def lowerBound (fuel : Nat) (key : κ) : IxM κ Iid := lowerBoundVia (findLeafPage fuel) key

/-- `upper_bound`. -/
def upperBound (fuel : Nat) (key : κ) : IxM κ Iid := upperBoundVia (findLeafPage fuel) key

/-! ## A new index -/

/-- An empty leaf whose neighbours are both `page`, as `create_index` writes it into a buffer
that holds `junk`. -/
def emptyLeaf (junk : IxNode κ) (page : Int) : IxNode κ :=
  { junk with parent := ixNoPage, numKey := 0, isLeaf := true, prevLeaf := page, nextLeaf := page }

/-- The header of a new index of the given order. -/
def initialHdr (order : Nat) (hdr : IxFileHdr) : IxFileHdr :=
  { hdr with
    firstFreePageNo := ixNoPage
    numPages := ixInitNumPages
    rootPage := ixInitRootPage
    btreeOrder := order
    firstLeaf := ixInitRootPage
    lastLeaf := ixInitRootPage }

/-- The pages of a new index: the file header read as a node, the header of the leaf list, and
the root. -/
def initialPages (page0 junk : IxNode κ) : Int → Option (IxNode κ) := fun no =>
  if no = 0 then some page0
  else if no = ixLeafHeaderPage then some (emptyLeaf junk ixInitRootPage)
  else if no = ixInitRootPage then some (emptyLeaf junk ixLeafHeaderPage)
  else none

/-- An index just created and opened. -/
def opened (order : Nat) (hdr : IxFileHdr) (page0 junk : IxNode κ) : IxIndexHandle κ where
  fileHdr := initialHdr order hdr
  store := ⟨initialPages page0 junk, [], ixInitNumPages, none⟩
  created := []
  unpinned := []

end IxIndexHandle

end Rucbase
