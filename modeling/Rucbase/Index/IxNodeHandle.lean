import Rucbase.Index.IxCompare
import Rucbase.Index.IxNode
import Rucbase.Lib.Slots
import Rucbase.Lib.SortedSearch
import Rucbase.Storage.Page

/-!
# `IxNodeHandle`, in the bytes of its page

`index/ix_node_handle.{h,cpp}` as it works on memory: behind the page header come the keys, of
`col_len` bytes each, and behind `keys_size` bytes the `Rid`s. The two arrays are moved by calls of
`memmove` of their own.
-/

namespace Rucbase

open Lib

/-- `IxNodeHandle`: the file header, and the bytes of the page. -/
structure IxNodeHandle where
  fileHdr : IxFileHdr
  data : Nat → UInt8
  colType : ColType
  /-- `col_type` is one of the enumerators. -/
  isType : fileHdr.colType = colType.toInt

namespace IxNodeHandle

variable (h : IxNodeHandle)

def colLen : Nat := h.fileHdr.colLen.toNat

/-- `page_hdr->num_key`. -/
def numKey : Int := int32At h.data 8

/-- Where the keys begin: behind an `IxPageHdr`. -/
def keysOff : Nat := 24

/-- Where the `Rid`s begin. -/
def ridsOff : Nat := keysOff + h.fileHdr.keysSize.toNat

/-- `get_key`. -/
def getKey (keyIdx : Nat) : Nat → UInt8 := fun j => h.data (keysOff + keyIdx * h.colLen + j)

/-- The `Rid` at `off`: two `int`s. -/
def ridAt (b : Nat → UInt8) (off : Nat) : Rid := ⟨int32At b off, int32At b (off + 4)⟩

/-- `*get_rid`. -/
def getRid (ridIdx : Nat) : Rid := ridAt h.data (h.ridsOff + ridIdx * 8)

/-- The bytes of a `Rid`. -/
def ridBytes (rid : Rid) : Nat → UInt8 := putInt32 (putInt32 (fun _ => 0) 0 rid.pageNo) 4 rid.slotNo

/-- `ix_compare(a, b, file_hdr->col_type, file_hdr->col_len)`. -/
def cmp (a b : Nat → UInt8) : Ordering := ixCompare a b h.colType h.fileHdr.colLen

/-- `lower_bound`. -/
def lowerBound (target : Nat → UInt8) : Nat := lowerPos h.cmp h.getKey h.numKey.toNat target

/-- `upper_bound`. -/
def upperBound (target : Nat → UInt8) : Nat := upperPos h.cmp h.getKey h.numKey.toNat target

/-- `LeafLookup`. -/
def leafLookup (key : Nat → UInt8) : Option Rid :=
  let idx := h.lowerBound key
  if idx < h.numKey ∧ h.cmp (h.getKey idx) key = .eq then some (h.getRid idx) else none

/-- `insert_pairs`, of the `n` keys and `Rid`s that begin at `key` and `rid`. -/
def insertPairs (pos : Nat) (key rid : Nat → UInt8) (n : Nat) : IxNodeHandle :=
  let numKey := h.numKey.toNat
  let b₁ := memmove h.data (keysOff + (pos + n) * h.colLen) (keysOff + pos * h.colLen)
    ((numKey - pos) * h.colLen)
  let b₂ := memmove b₁ (h.ridsOff + (pos + n) * 8) (h.ridsOff + pos * 8) ((numKey - pos) * 8)
  let b₃ := memcpy b₂ (keysOff + pos * h.colLen) key (n * h.colLen)
  let b₄ := memcpy b₃ (h.ridsOff + pos * 8) rid (n * 8)
  { h with data := putInt32 b₄ 8 (int32At b₄ 8 + n) }

/-- `Insert`: the node, and the number of keys it has then. -/
def insert (key : Nat → UInt8) (value : Rid) : IxNodeHandle × Int :=
  let pos := h.lowerBound key
  if pos < h.numKey ∧ h.cmp (h.getKey pos) key = .eq then (h, h.numKey)
  else
    let h' := h.insertPairs pos key (ridBytes value) 1
    (h', h'.numKey)

/-- `erase_pair`. -/
def erasePair (pos : Nat) : IxNodeHandle :=
  let numKey := h.numKey.toNat
  let b₁ := memmove h.data (keysOff + pos * h.colLen) (keysOff + (pos + 1) * h.colLen)
    ((numKey - pos - 1) * h.colLen)
  let b₂ := memmove b₁ (h.ridsOff + pos * 8) (h.ridsOff + (pos + 1) * 8) ((numKey - pos - 1) * 8)
  { h with data := putInt32 b₂ 8 (int32At b₂ 8 - 1) }

/-- `Remove`. -/
def remove (key : Nat → UInt8) : IxNodeHandle × Int :=
  let pos := h.lowerBound key
  if pos < h.numKey ∧ h.cmp (h.getKey pos) key = .eq then
    let h' := h.erasePair pos
    (h', h'.numKey)
  else (h, h.numKey)

/-- `GetMaxSize`. -/
def getMaxSize : Int := h.fileHdr.btreeOrder + 1

/-- The slots a node has. -/
def capacity : Nat := h.getMaxSize.toNat

/-- The layout that `create_index` gives the nodes of a file (or one with fewer slots), and a number
of keys that has room in it. -/
structure Sound : Prop where
  colLen : 0 ≤ h.fileHdr.colLen
  maxSize : 0 ≤ h.getMaxSize
  keysSize : h.getMaxSize * h.fileHdr.colLen ≤ h.fileHdr.keysSize
  page : keysOff + h.fileHdr.keysSize + h.getMaxSize * 8 ≤ pageSize
  numKey_nonneg : 0 ≤ h.numKey
  numKey_le : h.numKey ≤ h.getMaxSize

/-- The pairs that count, as the bytes of their keys and their `Rid`s. -/
def entries : List (List UInt8 × Rid) :=
  (List.range h.numKey.toNat).map fun i => (firstBytes (h.getKey i) h.colLen, h.getRid i)

/-- The `n` pairs that begin at `key` and `rid`. -/
def pairsAt (key rid : Nat → UInt8) (n : Nat) : List (List UInt8 × Rid) :=
  (List.range n).map fun i =>
    (firstBytes (fun j => key (i * h.colLen + j)) h.colLen, ridAt rid (i * 8))

/-! ## The layout -/

variable {h} {b b' key rid : Nat → UInt8} {off off' pos n i j : Nat} {r : Rid}

/-- The layout in natural numbers: the keys end before the `Rid`s, and these in the page. -/
theorem Sound.layout (hs : h.Sound) : (h.capacity : Int) = h.getMaxSize
    ∧ h.capacity * h.colLen + keysOff ≤ h.ridsOff ∧ h.ridsOff + h.capacity * 8 ≤ pageSize
    ∧ h.numKey.toNat ≤ h.capacity := by
  have hcap : (h.capacity : Int) = h.getMaxSize := Int.toNat_of_nonneg hs.maxSize
  have hlen : (h.colLen : Int) = h.fileHdr.colLen := Int.toNat_of_nonneg hs.colLen
  have hkeys := hs.keysSize
  rw [← hcap, ← hlen] at hkeys
  have hsize : (h.fileHdr.keysSize.toNat : Int) = h.fileHdr.keysSize :=
    Int.toNat_of_nonneg (Int.le_trans (by positivity) hkeys)
  have hpage := hs.page
  have hnum := hs.numKey_le
  refine ⟨hcap, ?_, ?_, by omega⟩
  · have : h.capacity * h.colLen ≤ h.fileHdr.keysSize.toNat := by
      rw [← hsize] at hkeys
      exact_mod_cast hkeys
    unfold ridsOff
    omega
  · unfold ridsOff
    omega

/-- **The header that `create_index` writes has this layout.** -/
theorem sound_of_initial {type : ColType} {len : Int} (hhdr : h.fileHdr = .initial type len)
    (hlen : 0 ≤ len) (hmax : len ≤ ixMaxColLen) (hnonneg : 0 ≤ h.numKey)
    (hle : h.numKey ≤ h.getMaxSize) : h.Sound := by
  have hentry : IxFileHdr.entrySize len = len + 8 :=
    Int.emod_eq_of_lt (by omega) (by unfold ixMaxColLen at hmax; omega)
  have hsize : h.getMaxSize = 4072 / (len + 8) := by
    rw [getMaxSize, hhdr, ← hentry]
    exact Int.sub_add_cancel _ 1
  have hfit : h.getMaxSize * (len + 8) ≤ 4072 := hsize ▸ Int.ediv_mul_le 4072 (by omega)
  have hkeys : h.fileHdr.keysSize = h.getMaxSize * len := by
    rw [getMaxSize, hhdr]
    rfl
  have hcol : h.fileHdr.colLen = len := by rw [hhdr]; rfl
  refine ⟨hcol ▸ hlen, ?_, ?_, ?_, hnonneg, hle⟩
  · rw [hsize]
    exact Int.ediv_nonneg (by omega) (by omega)
  · rw [hkeys, hcol]
  · rw [Int.mul_add] at hfit
    rw [hkeys]
    have hpage : (pageSize : Int) = 4096 := rfl
    have hoff : (keysOff : Int) = 24 := rfl
    omega

/-- Keys lie before the `Rid`s. -/
theorem Sound.keys_le (hs : h.Sound) (hi : i ≤ h.capacity) :
    keysOff + i * h.colLen ≤ h.ridsOff := by
  obtain ⟨_, hkeys, _⟩ := hs.layout
  have := Nat.mul_le_mul_right h.colLen hi
  omega

/-- A byte of a key lies before the `Rid`s. -/
theorem Sound.key_lt (hs : h.Sound) (hi : i < h.capacity) (hj : j < h.colLen) :
    keysOff + i * h.colLen + j < h.ridsOff := by
  have hnext := hs.keys_le (i := i + 1) hi
  rw [Nat.add_mul, Nat.one_mul] at hnext
  omega

/-- A `Rid` depends on its eight bytes only. -/
theorem ridAt_congr (hb : ∀ j, j < 8 → b (off + j) = b' (off' + j)) : ridAt b off = ridAt b' off' := by
  have hint : ∀ k, k + 4 ≤ 8 → int32At b (off + k) = int32At b' (off' + k) := by
    intro k hk
    unfold int32At
    simp only [Nat.add_assoc]
    rw [hb k (by omega), hb (k + 1) (by omega), hb (k + 2) (by omega), hb (k + 3) (by omega)]
  exact congrArg₂ Rid.mk (hint 0 (by omega)) (hint 4 (by omega))

/-- **Reading back a `Rid`.** -/
theorem ridAt_ridBytes (hp : IsInt32 r.pageNo) (hsl : IsInt32 r.slotNo) :
    ridAt (ridBytes r) 0 = r := by
  have hpage : int32At (ridBytes r) 0 = r.pageNo := by
    rw [ridBytes, int32At_putInt32_of_disjoint (by omega), int32At_putInt32 hp]
  have hslot : int32At (ridBytes r) 4 = r.slotNo := int32At_putInt32 hsl
  exact congrArg₂ Rid.mk hpage hslot

/-! ## `insert_pairs`, byte by byte -/

/-- The page header keeps its other fields. -/
theorem insertPairs_header (hi : i < keysOff) (hnum : i < 8 ∨ 12 ≤ i) :
    (h.insertPairs pos key rid n).data i = h.data i := by
  have hrids : keysOff ≤ h.ridsOff := Nat.le_add_right _ _
  unfold insertPairs
  dsimp only
  rw [putInt32, memcpy_apply_of_not (by omega), memcpy_apply_of_not (by omega),
    memcpy_apply_of_not (by omega), memmove_apply_of_not (by omega), memmove_apply_of_not (by omega)]

theorem numKey_insertPairs (pos : Nat) (key rid : Nat → UInt8) (hs : h.Sound)
    (hfit : h.numKey + n ≤ h.getMaxSize) :
    (h.insertPairs pos key rid n).numKey = h.numKey + n := by
  have hrids : keysOff ≤ h.ridsOff := Nat.le_add_right _ _
  have hkeys : keysOff = 24 := rfl
  obtain ⟨hcap, _, hpage, _⟩ := hs.layout
  have hnum := hs.numKey_nonneg
  have hsize : pageSize = 4096 := rfl
  have hold : int32At (memcpy (memcpy (memmove (memmove h.data (keysOff + (pos + n) * h.colLen)
      (keysOff + pos * h.colLen) ((h.numKey.toNat - pos) * h.colLen)) (h.ridsOff + (pos + n) * 8)
      (h.ridsOff + pos * 8) ((h.numKey.toNat - pos) * 8)) (keysOff + pos * h.colLen) key
      (n * h.colLen)) (h.ridsOff + pos * 8) rid (n * 8)) 8 = h.numKey := by
    rw [int32At_memcpy_of_disjoint (by omega), int32At_memcpy_of_disjoint (by omega), memmove,
      int32At_memcpy_of_disjoint (by omega), memmove, int32At_memcpy_of_disjoint (by omega)]
    rfl
  have hint : IsInt32 (h.numKey + n) := ⟨by omega, by omega⟩
  refine Eq.trans (congrArg (fun v => int32At (putInt32 _ 8 (v + n)) 8) hold) ?_
  exact int32At_putInt32 hint

/-- **The bytes of the keys** are spliced. -/
theorem getKey_insertPairs (key rid : Nat → UInt8) (n : Nat) (hs : h.Sound)
    (hpos : pos ≤ h.numKey.toNat) (hi : i < h.capacity) (hj : j < h.colLen) : (h.insertPairs pos key rid n).getKey i j
      = if i < pos then h.getKey i j
        else if i < pos + n then key ((i - pos) * h.colLen + j)
        else if i < h.numKey.toNat + n then h.getKey (i - n) j
        else h.getKey i j := by
  have hbefore := hs.key_lt hi hj
  have hkeys : keysOff = 24 := rfl
  have hlen : (h.insertPairs pos key rid n).colLen = h.colLen := rfl
  rw [getKey, hlen]
  refine Eq.trans ?_ (splice_slot (b := h.data) (o := keysOff) hj hpos)
  -- the `Rid`s and the count are written elsewhere
  refine (memcpy_apply_of_not (by omega)).trans ((memcpy_apply_of_not (by omega)).trans ?_)
  exact memcpy_congr_apply (memmove_apply_of_not (by omega))

/-- The bytes of the `Rid`s are spliced. -/
theorem ridByte_insertPairs (key rid : Nat → UInt8) (i : Nat) (hs : h.Sound)
    (hpos : pos ≤ h.numKey.toNat) (hfit : h.numKey + n ≤ h.getMaxSize) (hj : j < 8) :
    (h.insertPairs pos key rid n).data (h.ridsOff + i * 8 + j)
      = if i < pos then h.data (h.ridsOff + i * 8 + j)
        else if i < pos + n then rid ((i - pos) * 8 + j)
        else if i < h.numKey.toNat + n then h.data (h.ridsOff + (i - n) * 8 + j)
        else h.data (h.ridsOff + i * 8 + j) := by
  have hcap := hs.layout.1
  have hnum := hs.numKey_nonneg
  have hkeys : keysOff = 24 := rfl
  have hrids : keysOff ≤ h.ridsOff := Nat.le_add_right _ _
  -- the keys are written before the `Rid`s
  have hlast := hs.keys_le (i := h.numKey.toNat + n) (by omega)
  have hmoved : keysOff + (pos + n) * h.colLen + (h.numKey.toNat - pos) * h.colLen ≤ h.ridsOff := by
    rw [Nat.add_assoc, ← Nat.add_mul]
    have hsum : pos + n + (h.numKey.toNat - pos) = h.numKey.toNat + n := by omega
    rw [hsum]
    exact hlast
  have hnew : keysOff + pos * h.colLen + n * h.colLen ≤ h.ridsOff := by
    rw [Nat.add_assoc, ← Nat.add_mul]
    omega
  have hkept : ∀ k, memmove h.data (keysOff + (pos + n) * h.colLen) (keysOff + pos * h.colLen)
      ((h.numKey.toNat - pos) * h.colLen) (h.ridsOff + k) = h.data (h.ridsOff + k) :=
    fun k => memmove_apply_of_not (by omega)
  refine (memcpy_apply_of_not (by omega)).trans ?_
  refine (memcpy_congr_apply (memcpy_apply_of_not (by omega))).trans ?_
  rw [splice_slot hj hpos]
  simp only [Nat.add_assoc, hkept]

theorem getRid_insertPairs (hs : h.Sound) (hpos : pos ≤ h.numKey.toNat)
    (hfit : h.numKey + n ≤ h.getMaxSize) : (h.insertPairs pos key rid n).getRid i
      = if i < pos then h.getRid i
        else if i < pos + n then ridAt rid ((i - pos) * 8)
        else if i < h.numKey.toNat + n then h.getRid (i - n)
        else h.getRid i := by
  have hbyte := fun j (hj : j < 8) => ridByte_insertPairs key rid i hs hpos hfit hj
  by_cases h1 : i < pos
  · rw [if_pos h1]
    exact ridAt_congr fun j hj => (hbyte j hj).trans (if_pos h1)
  · rw [if_neg h1]
    by_cases h2 : i < pos + n
    · rw [if_pos h2]
      exact ridAt_congr fun j hj => (hbyte j hj).trans (by rw [if_neg h1, if_pos h2])
    · rw [if_neg h2]
      by_cases h3 : i < h.numKey.toNat + n
      · rw [if_pos h3]
        exact ridAt_congr fun j hj => (hbyte j hj).trans (by rw [if_neg h1, if_neg h2, if_pos h3])
      · rw [if_neg h3]
        exact ridAt_congr fun j hj => (hbyte j hj).trans (by rw [if_neg h1, if_neg h2, if_neg h3])

/-! ## `erase_pair`, byte by byte -/

theorem erasePair_header (hi : i < keysOff) (hnum : i < 8 ∨ 12 ≤ i) :
    (h.erasePair pos).data i = h.data i := by
  have hrids : keysOff ≤ h.ridsOff := Nat.le_add_right _ _
  unfold erasePair
  dsimp only
  rw [putInt32, memcpy_apply_of_not (by omega), memmove_apply_of_not (by omega),
    memmove_apply_of_not (by omega)]

theorem numKey_erasePair (hs : h.Sound) (hpos : pos < h.numKey) :
    (h.erasePair pos).numKey = h.numKey - 1 := by
  have hrids : keysOff ≤ h.ridsOff := Nat.le_add_right _ _
  have hkeys : keysOff = 24 := rfl
  obtain ⟨hcap, _, hpage, _⟩ := hs.layout
  have hle := hs.numKey_le
  have hsize : pageSize = 4096 := rfl
  have hold : int32At (memmove (memmove h.data (keysOff + pos * h.colLen)
      (keysOff + (pos + 1) * h.colLen) ((h.numKey.toNat - pos - 1) * h.colLen)) (h.ridsOff + pos * 8)
      (h.ridsOff + (pos + 1) * 8) ((h.numKey.toNat - pos - 1) * 8)) 8 = h.numKey := by
    rw [memmove, int32At_memcpy_of_disjoint (by omega), memmove,
      int32At_memcpy_of_disjoint (by omega)]
    rfl
  have hint : IsInt32 (h.numKey - 1) := ⟨by omega, by omega⟩
  refine Eq.trans (congrArg (fun v => int32At (putInt32 _ 8 (v - 1)) 8) hold) ?_
  exact int32At_putInt32 hint

theorem getKey_erasePair (pos : Nat) (hs : h.Sound) (hi : i < h.capacity) (hj : j < h.colLen) :
    (h.erasePair pos).getKey i j
      = if pos ≤ i ∧ i < h.numKey.toNat - 1 then h.getKey (i + 1) j else h.getKey i j := by
  have hbefore := hs.key_lt hi hj
  have hkeys : keysOff = 24 := rfl
  have hlen : (h.erasePair pos).colLen = h.colLen := rfl
  rw [getKey, hlen]
  refine Eq.trans ?_ (close_slot (b := h.data) (o := keysOff) hj)
  exact (memcpy_apply_of_not (by omega)).trans (memmove_apply_of_not (by omega))

theorem getRid_erasePair (hs : h.Sound) (hpos : pos < h.numKey) : (h.erasePair pos).getRid i
    = if pos ≤ i ∧ i < h.numKey.toNat - 1 then h.getRid (i + 1) else h.getRid i := by
  have hkeys : keysOff = 24 := rfl
  have hrids : keysOff ≤ h.ridsOff := Nat.le_add_right _ _
  have hlast := hs.keys_le hs.layout.2.2.2
  have hmoved : keysOff + pos * h.colLen + (h.numKey.toNat - pos - 1) * h.colLen ≤ h.ridsOff := by
    have hle := Nat.mul_le_mul_right h.colLen (show pos + (h.numKey.toNat - pos - 1) ≤ h.numKey.toNat
      by omega)
    rw [Nat.add_mul] at hle
    omega
  have hkept : ∀ k, memmove h.data (keysOff + pos * h.colLen) (keysOff + (pos + 1) * h.colLen)
      ((h.numKey.toNat - pos - 1) * h.colLen) (h.ridsOff + k) = h.data (h.ridsOff + k) :=
    fun k => memmove_apply_of_not (by omega)
  have hbyte : ∀ j, j < 8 → (h.erasePair pos).data (h.ridsOff + i * 8 + j)
      = if pos ≤ i ∧ i < h.numKey.toNat - 1 then h.data (h.ridsOff + (i + 1) * 8 + j)
        else h.data (h.ridsOff + i * 8 + j) := by
    intro j hj
    refine (memcpy_apply_of_not (by omega)).trans ?_
    rw [close_slot hj]
    simp only [Nat.add_assoc, hkept]
  by_cases hin : pos ≤ i ∧ i < h.numKey.toNat - 1
  · rw [if_pos hin]
    exact ridAt_congr fun j hj => (hbyte j hj).trans (if_pos hin)
  · rw [if_neg hin]
    exact ridAt_congr fun j hj => (hbyte j hj).trans (if_neg hin)

/-! ## The node as one of the tree

The arrays of `IxNode`, with some view of a key. -/

section

variable {κ : Type} {φ : (Nat → UInt8) → κ} {nd : IxNode κ}

/-- `nd` is the node in the bytes of `h`, with keys as `φ` sees them. -/
structure Represents (φ : (Nat → UInt8) → κ) (h : IxNodeHandle) (nd : IxNode κ) : Prop where
  parent : int32At h.data 4 = nd.parent
  numKey : h.numKey = nd.numKey
  isLeaf : (h.data 12 != 0) = nd.isLeaf
  prevLeaf : int32At h.data 16 = nd.prevLeaf
  nextLeaf : int32At h.data 20 = nd.nextLeaf
  keys : ∀ i, i < h.capacity → φ (h.getKey i) = nd.keys i
  rids : ∀ i, i < h.capacity → h.getRid i = nd.rids i

/-- `φ` looks at the bytes of a key and at no others. -/
def Sees (φ : (Nat → UInt8) → κ) (len : Nat) : Prop :=
  ∀ a b, (∀ j, j < len → a j = b j) → φ a = φ b

/-- The bytes themselves. -/
theorem sees_firstBytes (len : Nat) : Sees (fun b => firstBytes b len) len :=
  fun _ _ hab => firstBytes_congr hab

/-- Other header fields than the count are read from bytes that no splice writes. -/
theorem Represents.of_header {h' : IxNodeHandle} {nd' : IxNode κ} (hr : Represents φ h nd)
    (hhead : ∀ i, i < keysOff → i < 8 ∨ 12 ≤ i → h'.data i = h.data i)
    (hfields : nd'.parent = nd.parent ∧ nd'.isLeaf = nd.isLeaf ∧ nd'.prevLeaf = nd.prevLeaf
      ∧ nd'.nextLeaf = nd.nextLeaf) (hnum : h'.numKey = nd'.numKey)
    (hkeys : ∀ i, i < h'.capacity → φ (h'.getKey i) = nd'.keys i)
    (hrids : ∀ i, i < h'.capacity → h'.getRid i = nd'.rids i) : Represents φ h' nd' := by
  have hoff : keysOff = 24 := rfl
  have hint : ∀ off, off + 4 ≤ keysOff → (off + 4 ≤ 8 ∨ 12 ≤ off) →
      int32At h'.data off = int32At h.data off :=
    fun off h1 h2 => int32At_congr fun k hk => hhead _ (by omega) (by omega)
  obtain ⟨hf1, hf2, hf3, hf4⟩ := hfields
  refine ⟨?_, hnum, ?_, ?_, ?_, hkeys, hrids⟩
  · rw [hf1, hint 4 (by omega) (by omega)]
    exact hr.parent
  · rw [hf2, hhead 12 (by omega) (by omega)]
    exact hr.isLeaf
  · rw [hf3, hint 16 (by omega) (by omega)]
    exact hr.prevLeaf
  · rw [hf4, hint 20 (by omega) (by omega)]
    exact hr.nextLeaf

/-- **`insert_pairs` on bytes is `insert_pairs` on arrays.** -/
theorem Represents.insertPairs (hr : Represents φ h nd) (hs : h.Sound) (hφ : Sees φ h.colLen)
    (key rid : Nat → UInt8) (hpos : pos ≤ nd.numKey) (hfit : h.numKey + n ≤ h.getMaxSize) :
    Represents φ (h.insertPairs pos key rid n)
      (nd.insertPairs pos (fun i => φ fun j => key (i * h.colLen + j)) (fun i => ridAt rid (i * 8)) n)
    := by
  have hm : h.numKey.toNat = nd.numKey := by rw [hr.numKey, Int.toNat_natCast]
  have hposm : pos ≤ h.numKey.toNat := by rw [hm]; exact hpos
  have hcap := hs.layout.1
  have hnum := hr.numKey
  refine hr.of_header (fun i => insertPairs_header) ⟨rfl, rfl, rfl, rfl⟩ ?_ ?_ ?_
  · rw [numKey_insertPairs _ _ _ hs hfit, hr.numKey]
    rfl
  · intro i (hi : i < h.capacity)
    have hbyte := fun j (hj : j < h.colLen) => getKey_insertPairs key rid n hs hposm hi hj
    unfold IxNode.insertPairs
    dsimp only
    by_cases h1 : i < pos
    · rw [if_pos h1, ← hr.keys i hi]
      exact hφ _ _ fun j hj => (hbyte j hj).trans (if_pos h1)
    · rw [if_neg h1]
      by_cases h2 : i < pos + n
      · rw [if_pos h2]
        exact hφ _ _ fun j hj => (hbyte j hj).trans (by rw [if_neg h1, if_pos h2])
      · rw [if_neg h2, ← hm]
        by_cases h3 : i < h.numKey.toNat + n
        · rw [if_pos h3, ← hr.keys (i - n) (by omega)]
          exact hφ _ _ fun j hj => (hbyte j hj).trans (by rw [if_neg h1, if_neg h2, if_pos h3])
        · rw [if_neg h3, ← hr.keys i hi]
          exact hφ _ _ fun j hj => (hbyte j hj).trans (by rw [if_neg h1, if_neg h2, if_neg h3])
  · intro i (hi : i < h.capacity)
    rw [getRid_insertPairs hs hposm hfit, hm]
    unfold IxNode.insertPairs
    dsimp only
    rw [hr.rids i hi, hr.rids (i - n) (by omega)]

/-- **`erase_pair` on bytes is `erase_pair` on arrays.** -/
theorem Represents.erasePair (hr : Represents φ h nd) (hs : h.Sound) (hφ : Sees φ h.colLen)
    (hpos : pos < nd.numKey) : Represents φ (h.erasePair pos) (nd.erasePair pos) := by
  have hm : h.numKey.toNat = nd.numKey := by rw [hr.numKey, Int.toNat_natCast]
  have hnum := hr.numKey
  have hcap := hs.layout.2.2.2
  have hposm : (pos : Int) < h.numKey := by omega
  refine hr.of_header (fun i => erasePair_header) ⟨rfl, rfl, rfl, rfl⟩ ?_ ?_ ?_
  · rw [numKey_erasePair hs hposm, hr.numKey]
    unfold IxNode.erasePair
    dsimp only
    omega
  · intro i (hi : i < h.capacity)
    have hbyte := fun j (hj : j < h.colLen) => getKey_erasePair pos hs hi hj
    unfold IxNode.erasePair
    dsimp only
    rw [← hm]
    by_cases hin : pos ≤ i ∧ i < h.numKey.toNat - 1
    · rw [if_pos hin, ← hr.keys (i + 1) (by omega)]
      exact hφ _ _ fun j hj => (hbyte j hj).trans (if_pos hin)
    · rw [if_neg hin, ← hr.keys i hi]
      exact hφ _ _ fun j hj => (hbyte j hj).trans (if_neg hin)
  · intro i (hi : i < h.capacity)
    rw [getRid_erasePair hs hposm, hm]
    unfold IxNode.erasePair
    dsimp only
    by_cases hin : pos ≤ i ∧ i < nd.numKey - 1
    · rw [if_pos hin, if_pos hin, hr.rids (i + 1) (by omega)]
    · rw [if_neg hin, if_neg hin, hr.rids i hi]

end

end IxNodeHandle

end Rucbase
