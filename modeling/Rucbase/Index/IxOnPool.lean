import Rucbase.Storage.FileCreation
import Rucbase.Storage.PoolPins
import Rucbase.Index.IxIndexHandle
import Rucbase.Index.IxNodeHandle

/-!
# `IxIndexHandle` on the buffer pool

The functions of `index/ix_index_handle.cpp` that `insert_entry` needs, over the pool itself and in
the bytes of the pages: a node handle is the frame that `FetchPage` or `NewPage` returned, and its
page is written through that pointer and given back with `UnpinPage`. Whatever the pages hold, these
calls leave the files that are open as they are.
-/

namespace Rucbase

open Lib BufferPoolManager

namespace IxNodeHandle

/-- `IsLeafPage`. -/
def isLeafPage (h : IxNodeHandle) : Bool := h.data 12 ≠ 0

/-- `GetNextLeaf`. -/
def getNextLeaf (h : IxNodeHandle) : Int := int32At h.data 20

/-- `GetParentPageNo`. -/
def getParentPageNo (h : IxNodeHandle) : Int := int32At h.data 4

/-- `SetParentPageNo`. -/
def setParentPageNo (h : IxNodeHandle) (parent : Int) : IxNodeHandle :=
  { h with data := putInt32 h.data 4 parent }

/-- `SetSize`. -/
def setSize (h : IxNodeHandle) (size : Int) : IxNodeHandle := { h with data := putInt32 h.data 8 size }

/-- `SetPrevLeaf`. -/
def setPrevLeaf (h : IxNodeHandle) (pageNo : Int) : IxNodeHandle :=
  { h with data := putInt32 h.data 16 pageNo }

/-- `SetNextLeaf`. -/
def setNextLeaf (h : IxNodeHandle) (pageNo : Int) : IxNodeHandle :=
  { h with data := putInt32 h.data 20 pageNo }

/-- What is assigned to the header of a new node. -/
def start (h : IxNodeHandle) (isLeaf : Bool) (parent : Int) : IxNodeHandle :=
  let b := memcpy h.data 12 (fun _ => if isLeaf then 1 else 0) 1
  { h with data := putInt32 (putInt32 (putInt32 b 8 0) 4 parent) 0 ixNoPage }

/-- `InternalLookup`. -/
def internalLookup (h : IxNodeHandle) (key : Nat → UInt8) : Int := (h.getRid (h.upperBound key)).pageNo

/-- `find_child`. -/
def findChild (h : IxNodeHandle) (child : Int) : Option Nat :=
  (List.range h.numKey.toNat).find? fun i => (h.getRid i).pageNo = child

/-- `n` keys and `n` `Rid`s end before the page does. -/
def Fits (h : IxNodeHandle) (n : Int) : Prop :=
  0 ≤ n ∧ 0 ≤ h.fileHdr.colLen ∧ 0 ≤ h.fileHdr.keysSize
    ∧ keysOff + n * h.fileHdr.colLen ≤ pageSize ∧ h.ridsOff + n * 8 ≤ pageSize

instance (h : IxNodeHandle) (n : Int) : Decidable (h.Fits n) :=
  inferInstanceAs (Decidable (0 ≤ n ∧ 0 ≤ h.fileHdr.colLen ∧ 0 ≤ h.fileHdr.keysSize
    ∧ keysOff + n * h.fileHdr.colLen ≤ pageSize ∧ h.ridsOff + n * 8 ≤ pageSize))

end IxNodeHandle

/-- An open index: `fd_`, `file_hdr_` and the pool with the disk behind it. -/
structure PooledIndex where
  fd : Int
  fileHdr : IxFileHdr
  colType : ColType
  /-- `col_type` is one of the enumerators. -/
  isType : fileHdr.colType = colType.toInt
  pool : BufferPoolManager

abbrev PooledIxM := EStateM RedBaseError PooledIndex

namespace PooledIndex

/-- A call to `buffer_pool_manager_`. -/
def pooled {α : Type} (x : PoolM α) : PooledIxM α := fun s =>
  match x.run s.pool with
  | .ok a pool => .ok a { s with pool := pool }
  | .error e pool => .error e { s with pool := pool }

/-- `IxNodeHandle(&file_hdr_, page)`, for a page with these bytes. -/
def node (s : PooledIndex) (x : PageData) : IxNodeHandle := ⟨s.fileHdr, x.toBuf, s.colType, s.isType⟩

/-- `FetchNode`. A page that the pool has no frame for is used all the same. -/
def fetchNode (pageNo : Int) : PooledIxM Nat := do
  let s ← get
  match ← pooled (BufferPoolManager.fetchPage ⟨s.fd, pageNo⟩) with
  | none => throw .undefinedBehaviour
  | some f => return f

/-- `buffer_pool_manager_->UnpinPage(node->GetPageId(), is_dirty)`. -/
def unpinPage (f : Nat) (isDirty : Bool) : PooledIxM Unit := do
  let s ← get
  let _ ← pooled (BufferPoolManager.unpinPage (s.pool.pages f).id isDirty)

/-- `get_rid`. -/
def getRid (iid : Iid) : PooledIxM Rid := do
  let f ← fetchNode iid.pageNo
  let s ← get
  let node := s.node (s.pool.pages f).data
  if node.numKey ≤ iid.slotNo then
    throw .indexEntryNotFoundError
  else
    unpinPage f false
    return node.getRid iid.slotNo

/-- The node in frame `f`. -/
def nodeAt (s : PooledIndex) (f : Nat) : IxNodeHandle := s.node (s.pool.pages f).data

/-- `GetPageNo`. -/
def pageNo (s : PooledIndex) (f : Nat) : Int := (s.pool.pages f).id.pageNo

/-- Change the bytes behind a node handle. -/
def modifyNode (f : Nat) (g : IxNodeHandle → IxNodeHandle) : PooledIxM Unit :=
  modify fun s => { s with pool := s.pool.overwrite f (.ofBuf (g (s.nodeAt f)).data) }

/-- `insert_pairs`. A node whose count leaves no room for `n` pairs is overrun. -/
def insertPairs (f pos : Nat) (key rid : Nat → UInt8) (n : Nat) : PooledIxM Unit := do
  let s ← get
  if (s.nodeAt f).Fits ((s.nodeAt f).numKey + n) then
    modifyNode f (·.insertPairs pos key rid n)
  else
    throw .undefinedBehaviour

/-- `insert_pair`. -/
def insertPair (f pos : Nat) (key : Nat → UInt8) (rid : Rid) : PooledIxM Unit :=
  insertPairs f pos key (IxNodeHandle.ridBytes rid) 1

/-- `Insert`: the number of keys the node has then. -/
def insert (f : Nat) (key : Nat → UInt8) (value : Rid) : PooledIxM Int := do
  let s ← get
  if (s.nodeAt f).Fits ((s.nodeAt f).numKey + 1) then
    modifyNode f fun h => (h.insert key value).1
    return ((s.nodeAt f).insert key value).2
  else
    throw .undefinedBehaviour

/-- `CreateNode`. -/
def createNode : PooledIxM Nat := do
  modify fun s => { s with fileHdr := { s.fileHdr with numPages := s.fileHdr.numPages + 1 } }
  let s ← get
  match ← pooled (BufferPoolManager.newPage s.fd) with
  | none => throw .undefinedBehaviour
  | some (f, _) => return f

/-- `find_child`, called on the node `parent`. -/
def findChild (parent child : Nat) : PooledIxM Nat := do
  let s ← get
  match (s.nodeAt parent).findChild (s.pageNo child) with
  | some idx => return idx
  | none => throw .assertionFailure

/-- `maintain_child`. -/
def maintainChild (node childIdx : Nat) : PooledIxM Unit := do
  let s ← get
  onlyIf ((s.nodeAt node).isLeafPage = false) do
    let child ← fetchNode ((s.nodeAt node).getRid childIdx).pageNo
    modifyNode child (·.setParentPageNo (s.pageNo node))
    unpinPage child true

/-! ## Insertion -/

/-- The loop of `FindLeafPage`. -/
def descend (key : Nat → UInt8) : Nat → Nat → PooledIxM Nat
  | 0, _ => throw .outOfFuel
  | fuel + 1, node => do
      let s ← get
      if (s.nodeAt node).isLeafPage then
        return node
      else
        let childPageNo := (s.nodeAt node).internalLookup key
        unpinPage node false
        let child ← fetchNode childPageNo
        descend key fuel child

/-- `FindLeafPage`. -/
def findLeafPage (fuel : Nat) (key : Nat → UInt8) : PooledIxM Nat := do
  let s ← get
  let node ← fetchNode s.fileHdr.rootPage
  descend key fuel node

/-- The part of `Split` that links a new leaf behind `node`. -/
def linkLeaf (node newNode : Nat) : PooledIxM Unit := do
  let s ← get
  let nextLeaf := (s.nodeAt node).getNextLeaf
  modifyNode newNode fun h => (h.setNextLeaf nextLeaf).setPrevLeaf (s.pageNo node)
  onlyIf (nextLeaf ≠ ixNoPage) do
    let next ← fetchNode nextLeaf
    modifyNode next (·.setPrevLeaf (s.pageNo newNode))
    unpinPage next true
  modifyNode node (·.setNextLeaf (s.pageNo newNode))

/-- `Split`. -/
def split (node : Nat) : PooledIxM Nat := do
  let newNode ← createNode
  let s ← get
  let h := s.nodeAt node
  modifyNode newNode (·.start h.isLeafPage h.getParentPageNo)
  let total := h.numKey.toNat
  let mid := (total + 1) / 2
  let rightSize := total - mid
  insertPairs newNode 0 (h.getKey mid) (fun j => h.data (h.ridsOff + mid * 8 + j)) rightSize
  modifyNode node (·.setSize mid)
  onlyIf (h.isLeafPage = true) (linkLeaf node newNode)
  onlyIf (h.isLeafPage = false) (forM (List.range rightSize) (maintainChild newNode))
  return newNode

/-- The branch of `InsertIntoParent` for a root: a new root above it. -/
def growRoot (oldNode : Nat) (key : Nat → UInt8) (newNode : Nat) : PooledIxM Unit := do
  let newRoot ← createNode
  let s ← get
  modifyNode newRoot (·.start false ixNoPage)
  insertPair newRoot 0 ((s.nodeAt oldNode).getKey 0) ⟨s.pageNo oldNode, -1⟩
  insertPair newRoot 1 key ⟨s.pageNo newNode, -1⟩
  modifyNode oldNode (·.setParentPageNo (s.pageNo newRoot))
  modifyNode newNode (·.setParentPageNo (s.pageNo newRoot))
  modify fun t => { t with fileHdr := { t.fileHdr with rootPage := s.pageNo newRoot } }
  unpinPage newRoot true

/-- `InsertIntoParent`. -/
def insertIntoParent : Nat → Nat → (Nat → UInt8) → Nat → PooledIxM Unit
  | 0, _, _, _ => throw .outOfFuel
  | fuel + 1, oldNode, key, newNode => do
      let s ← get
      if (s.nodeAt oldNode).getParentPageNo = invalidPageId then
        growRoot oldNode key newNode
      else
        let parent ← fetchNode (s.nodeAt oldNode).getParentPageNo
        let idx ← findChild parent oldNode
        insertPair parent (idx + 1) key ⟨s.pageNo newNode, -1⟩
        let s ← get
        modifyNode newNode (·.setParentPageNo (s.pageNo parent))
        onlyIf ((s.nodeAt parent).numKey = (s.nodeAt parent).getMaxSize) do
          let newParent ← split parent
          let s ← get
          insertIntoParent fuel parent ((s.nodeAt newParent).getKey 0) newParent
          unpinPage newParent true
        unpinPage parent true

/-- `insert_entry`. -/
def insertEntry (fuel : Nat) (key : Nat → UInt8) (value : Rid) : PooledIxM Bool := do
  let leaf ← findLeafPage fuel key
  let newSize ← insert leaf key value
  let s ← get
  onlyIf (newSize = (s.nodeAt leaf).getMaxSize) do
    let newLeaf ← split leaf
    let t ← get
    insertIntoParent fuel leaf ((t.nodeAt newLeaf).getKey 0) newLeaf
    onlyIf (s.pageNo leaf = s.fileHdr.lastLeaf)
      (modify fun u => { u with fileHdr := { u.fileHdr with lastLeaf := t.pageNo newLeaf } })
    unpinPage newLeaf true
  unpinPage leaf true
  return true

end PooledIndex

/-! ## The files that are open -/

namespace BufferPoolManager

/-- The tables of `DiskManager` agree, and `files` are what is open. -/
def Open (files : Int → Option String) (s : BufferPoolManager) : Prop :=
  s.diskManager.Tables ∧ s.diskManager.openFds = files

variable {files : Int → Option String} {s : BufferPoolManager} {d : DiskManager} {p : PageId} {f : Nat}

theorem Open.writePage {fd no : Int} {buf : Nat → UInt8} {n : Nat} (h : s.Open files)
    (hw : s.diskManager.writePage fd no buf n = some d) : Open files { s with diskManager := d } := by
  refine ⟨h.1.step (.writePage _ _ _ _ hw), ?_⟩
  obtain ⟨_, _, _, _, _, rfl⟩ := DiskManager.writePage_some hw
  exact h.2

theorem upholds_writeBack (p : PageId) (x : PageData) :
    Upholds (Open files) (· = .unixError) (writeBack p x) := by
  refine .get_bind fun s hs => ?_
  split
  · exact .throw rfl
  · rename_i hw
    exact .set (hs.writePage hw)

theorem upholds_findVictimPage : Upholds (Open files) (· = .unixError) findVictimPage := by
  refine .get_bind fun s hs => ?_
  split
  · exact .set_bind hs (.pure _)
  · exact .set_bind hs (.pure _)

theorem upholds_updatePage (f : Nat) (p : PageId) (g : Nat) :
    Upholds (Open files) (· = .unixError) (updatePage f p g) :=
  .get_bind fun _ _ => (Upholds.onlyIf (upholds_writeBack ..)).bind fun _ =>
    .bind (.onlyIf (.modify fun _ h => h)) fun _ =>
      .bind (.modify fun _ h => h) fun _ => .modify fun _ h => h

theorem upholds_readInto (f : Nat) (p : PageId) :
    Upholds (Open files) (· = .unixError) (readInto f p) :=
  .get_bind fun _ hs => .set_bind hs (.ite (.pure _) (.throw rfl))

theorem upholds_fetchPage (p : PageId) : Upholds (Open files) (· = .unixError) (fetchPage p) := by
  refine .get_bind fun s hs => ?_
  split
  · exact .set_bind hs (.pure _)
  · refine upholds_findVictimPage.bind fun f => ?_
    cases f with
    | none => exact .pure _
    | some f =>
        exact (upholds_updatePage ..).bind fun _ => (upholds_readInto ..).bind fun _ =>
          .bind (.modify fun _ h => h) fun _ => .pure _

theorem upholds_newPage (fd : Int) : Upholds (Open files) (· = .unixError) (newPage fd) := by
  refine upholds_findVictimPage.bind fun f => ?_
  cases f with
  | none => exact .pure _
  | some f =>
      refine .get_bind fun s hs => .set_bind ⟨hs.1.step (.allocatePage fd), hs.2⟩ ?_
      exact (upholds_updatePage ..).bind fun _ => .bind (.modify fun _ h => h) fun _ => .pure _

theorem upholds_unpinPage (p : PageId) (isDirty : Bool) :
    Upholds (Open files) (· = .unixError) (unpinPage p isDirty) := by
  refine .get_bind fun s hs => ?_
  split
  · exact .pure _
  · exact .ite (.pure _) (.set_bind hs (.pure _))

end BufferPoolManager

namespace PooledIndex

/-- What calls on an index raise, and how else they end: a system call fails; an `assert` does; a
loop goes on; a page that is not there is used, or one that does not hold what was put there. -/
def Fails : RedBaseError → Prop
  | .unixError | .assertionFailure | .outOfFuel | .undefinedBehaviour => True
  | _ => False

/-- The index is open under `fd`, and `files` are what is open. -/
def Open (fd : Int) (files : Int → Option String) (s : PooledIndex) : Prop :=
  s.fd = fd ∧ s.pool.Open files

variable {α : Type} {s : PooledIndex} {fd : Int} {files : Int → Option String}

theorem run_pooled {y : PoolM α} {pool : BufferPoolManager} {a : α} (h : y.run s.pool = .ok a pool) :
    (pooled y).run s = .ok a { s with pool := pool } := by
  show pooled y s = _
  unfold pooled
  rw [h]

theorem run_pooled_error {y : PoolM α} {pool : BufferPoolManager} {e : RedBaseError}
    (h : y.run s.pool = .error e pool) : (pooled y).run s = .error e { s with pool := pool } := by
  show pooled y s = _
  unfold pooled
  rw [h]

theorem upholds_pooled {x : PoolM α} (hx : Upholds (BufferPoolManager.Open files) (· = .unixError) x) :
    Upholds (Open fd files) Fails (pooled x) :=
  ⟨fun s ⟨hfd, hs⟩ => .lift run_pooled run_pooled_error <| (hx.ends s.pool hs).imp
    (fun _ _ hopen => ⟨hfd, hopen⟩) fun _ _ ⟨hopen, he⟩ => ⟨⟨hfd, hopen⟩, he ▸ trivial⟩⟩

theorem upholds_fetchNode (no : Int) : Upholds (Open fd files) Fails (fetchNode no) := by
  refine .get_bind fun s _ => (upholds_pooled (upholds_fetchPage _)).bind fun f => ?_
  cases f with
  | none => exact .throw trivial
  | some f => exact .pure f

theorem upholds_unpinPage (f : Nat) (isDirty : Bool) :
    Upholds (Open fd files) Fails (unpinPage f isDirty) :=
  .get_bind fun _ _ => (upholds_pooled (BufferPoolManager.upholds_unpinPage ..)).bind fun _ => .pure _

theorem upholds_modifyNode (f : Nat) (g : IxNodeHandle → IxNodeHandle) :
    Upholds (Open fd files) Fails (modifyNode f g) := .modify fun _ h => h

theorem upholds_insertPairs (f pos : Nat) (key rid : Nat → UInt8) (n : Nat) :
    Upholds (Open fd files) Fails (insertPairs f pos key rid n) :=
  .get_bind fun _ _ => .ite (upholds_modifyNode ..) (.throw trivial)

theorem upholds_insert (f : Nat) (key : Nat → UInt8) (value : Rid) :
    Upholds (Open fd files) Fails (insert f key value) :=
  .get_bind fun _ _ => .ite ((upholds_modifyNode ..).bind fun _ => .pure _) (.throw trivial)

theorem upholds_createNode : Upholds (Open fd files) Fails createNode := by
  refine .bind (.modify fun _ h => h) fun _ => .get_bind fun s _ =>
    (upholds_pooled (upholds_newPage _)).bind fun r => ?_
  cases r with
  | none => exact .throw trivial
  | some r => exact .pure r.1

theorem upholds_findChild (parent child : Nat) :
    Upholds (Open fd files) Fails (findChild parent child) := by
  refine .get_bind fun s _ => ?_
  split
  · exact .pure _
  · exact .throw trivial

theorem upholds_maintainChild (node childIdx : Nat) :
    Upholds (Open fd files) Fails (maintainChild node childIdx) :=
  .get_bind fun _ _ => .onlyIf ((upholds_fetchNode _).bind fun _ =>
    (upholds_modifyNode ..).bind fun _ => upholds_unpinPage ..)

theorem upholds_descend (key : Nat → UInt8) :
    ∀ fuel node, Upholds (Open fd files) Fails (descend key fuel node)
  | 0, _ => .throw trivial
  | fuel + 1, _ => .get_bind fun _ _ => .ite (.pure _) ((upholds_unpinPage ..).bind fun _ =>
      (upholds_fetchNode _).bind fun child => upholds_descend key fuel child)

theorem upholds_findLeafPage (fuel : Nat) (key : Nat → UInt8) :
    Upholds (Open fd files) Fails (findLeafPage fuel key) :=
  .get_bind fun _ _ => (upholds_fetchNode _).bind fun _ => upholds_descend ..

theorem upholds_linkLeaf (node newNode : Nat) :
    Upholds (Open fd files) Fails (linkLeaf node newNode) :=
  .get_bind fun _ _ => (upholds_modifyNode ..).bind fun _ =>
    .bind (.onlyIf ((upholds_fetchNode _).bind fun _ => (upholds_modifyNode ..).bind fun _ =>
      upholds_unpinPage ..)) fun _ => upholds_modifyNode ..

theorem upholds_split (node : Nat) : Upholds (Open fd files) Fails (split node) :=
  upholds_createNode.bind fun _ => .get_bind fun _ _ => (upholds_modifyNode ..).bind fun _ =>
    (upholds_insertPairs ..).bind fun _ => (upholds_modifyNode ..).bind fun _ =>
      .bind (.onlyIf (upholds_linkLeaf ..)) fun _ =>
        .bind (.onlyIf (.forM (upholds_maintainChild _) _)) fun _ => .pure _

theorem upholds_growRoot (oldNode : Nat) (key : Nat → UInt8) (newNode : Nat) :
    Upholds (Open fd files) Fails (growRoot oldNode key newNode) :=
  upholds_createNode.bind fun _ => .get_bind fun _ _ => (upholds_modifyNode ..).bind fun _ =>
    (upholds_insertPairs ..).bind fun _ => (upholds_insertPairs ..).bind fun _ =>
      (upholds_modifyNode ..).bind fun _ => (upholds_modifyNode ..).bind fun _ =>
        .bind (.modify fun _ h => h) fun _ => upholds_unpinPage ..

theorem upholds_insertIntoParent : ∀ fuel oldNode (key : Nat → UInt8) newNode,
    Upholds (Open fd files) Fails (insertIntoParent fuel oldNode key newNode)
  | 0, _, _, _ => .throw trivial
  | fuel + 1, oldNode, key, newNode => by
      refine .get_bind fun s _ => .ite (upholds_growRoot ..) ((upholds_fetchNode _).bind fun parent =>
        (upholds_findChild ..).bind fun idx => (upholds_insertPairs ..).bind fun _ =>
          .get_bind fun s _ => (upholds_modifyNode ..).bind fun _ => .bind ?_ fun _ =>
            upholds_unpinPage ..)
      -- a parent that is full is split in turn
      exact .onlyIf ((upholds_split _).bind fun newParent => .get_bind fun t _ =>
        (upholds_insertIntoParent fuel ..).bind fun _ => upholds_unpinPage ..)

/-- **`insert_entry` opens and closes no file.** -/
theorem upholds_insertEntry (fuel : Nat) (key : Nat → UInt8) (value : Rid) :
    Upholds (Open fd files) Fails (insertEntry fuel key value) := by
  refine (upholds_findLeafPage ..).bind fun leaf => (upholds_insert ..).bind fun newSize =>
    .get_bind fun s _ => .bind (.onlyIf ?_) fun _ => (upholds_unpinPage ..).bind fun _ => .pure _
  exact (upholds_split _).bind fun newLeaf => .get_bind fun t _ =>
    (upholds_insertIntoParent ..).bind fun _ =>
      .bind (.onlyIf (.modify fun _ h => h)) fun _ => upholds_unpinPage ..

end PooledIndex

end Rucbase
