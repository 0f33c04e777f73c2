import Rucbase.Index.IxNodeHandle

/-!
# A node is a sorted map

The two arrays of a page are spliced together, so they stay one list of pairs. If its keys ascend
under `ix_compare`, the searches count, `LeafLookup` finds, and `Insert` and `Remove` change the pair
of their key and no other.
-/

namespace Rucbase

open Lib

/-- On everything but `TYPE_FLOAT`, `ix_compare` is a total preorder. -/
theorem transCmp_ixCompare {type : ColType} {colLen : Int} (htype : type ≠ .typeFloat) :
    Std.TransCmp fun a b => ixCompare a b type colLen := by
  cases type with
  | typeInt => exact inferInstanceAs (Std.TransCmp (compareOn fun b => int32At b 0))
  | typeFloat => exact absurd rfl htype
  | typeString =>
      have hbytes : (fun a b => ixCompare a b .typeString colLen)
          = compareOn fun b => firstBytes b colLen.toNat :=
        funext fun a => funext fun b => memcmp_eq_compare
      rw [hbytes]
      infer_instance

namespace IxNodeHandle

/-- A node whose keys ascend under `ix_compare`. An `int` has room in its column. -/
structure Sorted (h : IxNodeHandle) : Prop extends h.Sound where
  type : h.colType ≠ .typeFloat
  intLen : h.colType = .typeInt → 4 ≤ h.colLen
  ascending : Ascending h.cmp h.getKey h.numKey.toNat

/-- A key of the node compares as equal. -/
def Has (h : IxNodeHandle) (key : Nat → UInt8) : Prop :=
  ∃ i, i < h.numKey.toNat ∧ h.cmp (h.getKey i) key = .eq

instance (h : IxNodeHandle) (key : Nat → UInt8) : Decidable (h.Has key) :=
  inferInstanceAs (Decidable (∃ i, i < h.numKey.toNat ∧ h.cmp (h.getKey i) key = .eq))

variable {h : IxNodeHandle} {key rid a a' b b' : Nat → UInt8} {pos n i : Nat} {v : Rid}

/-! ## The splices -/

/-- The arrays of a node, with the bytes of the keys. -/
def node (h : IxNodeHandle) : IxNode (List UInt8) where
  parent := int32At h.data 4
  numKey := h.numKey.toNat
  isLeaf := h.data 12 != 0
  prevLeaf := int32At h.data 16
  nextLeaf := int32At h.data 20
  keys i := firstBytes (h.getKey i) h.colLen
  rids := h.getRid

theorem represents_node (hs : h.Sound) : Represents (fun b => firstBytes b h.colLen) h h.node :=
  ⟨rfl, (Int.toNat_of_nonneg hs.numKey_nonneg).symm, rfl, rfl, rfl, fun _ _ => rfl, fun _ _ => rfl⟩

/-- The pairs that count are those of the arrays. -/
theorem Represents.entries {nd : IxNode (List UInt8)}
    (hr : Represents (fun b => firstBytes b h.colLen) h nd) (hcap : nd.numKey ≤ h.capacity) :
    h.entries = nd.entries := by
  have hnum : h.numKey.toNat = nd.numKey := by rw [hr.numKey, Int.toNat_natCast]
  unfold IxNodeHandle.entries IxNode.entries
  rw [hnum]
  refine List.map_congr_left fun i hi => ?_
  have hlt := Nat.lt_of_lt_of_le (List.mem_range.mp hi) hcap
  rw [← hr.keys i hlt, ← hr.rids i hlt]

/-- **`insert_pairs` is a splice of the list of pairs.** -/
theorem entries_insertPairs (hs : h.Sound) (hpos : pos ≤ h.numKey.toNat)
    (hfit : h.numKey + n ≤ h.getMaxSize) : (h.insertPairs pos key rid n).entries
      = h.entries.take pos ++ h.pairsAt key rid n ++ h.entries.drop pos := by
  have hr := (represents_node hs).insertPairs hs (sees_firstBytes _) key rid hpos hfit
  have hcap := hs.layout.1
  have hnum := hs.numKey_nonneg
  have hnode : h.node.numKey = h.numKey.toNat := rfl
  refine (Represents.entries (h := h.insertPairs pos key rid n) hr ?_).trans ?_
  · have hroom : h.node.numKey + n ≤ h.capacity := by omega
    exact hroom
  · exact IxNode.entries_insertPairs hpos

/-- **`erase_pair` is a splice of the list of pairs.** -/
theorem entries_erasePair (hs : h.Sound) (hpos : pos < h.numKey.toNat) :
    (h.erasePair pos).entries = h.entries.take pos ++ h.entries.drop (pos + 1) := by
  have hr := (represents_node hs).erasePair hs (sees_firstBytes _) hpos
  refine (Represents.entries (h := h.erasePair pos) hr ?_).trans ?_
  · have hroom : h.numKey.toNat - 1 ≤ h.capacity := Nat.le_trans (Nat.sub_le _ _) hs.layout.2.2.2
    exact hroom
  · exact IxNode.entries_erasePair hpos

theorem Sound.insertPairs (hs : h.Sound) (hfit : h.numKey + n ≤ h.getMaxSize) :
    (h.insertPairs pos key rid n).Sound := by
  have hnum := numKey_insertPairs pos key rid hs hfit
  have hnonneg := hs.numKey_nonneg
  exact ⟨hs.colLen, hs.maxSize, hs.keysSize, hs.page, by omega, hnum ▸ hfit⟩

theorem Sound.erasePair (hs : h.Sound) (hpos : pos < h.numKey.toNat) : (h.erasePair pos).Sound := by
  have hnum : (h.erasePair pos).numKey = h.numKey - 1 := numKey_erasePair hs (by omega)
  have hle := hs.numKey_le
  refine ⟨hs.colLen, hs.maxSize, hs.keysSize, hs.page, by omega, ?_⟩
  rw [hnum]
  exact Int.le_trans (by omega) hle

/-! ## The searches -/

namespace Sorted

theorem transCmp (hs : h.Sorted) : Std.TransCmp h.cmp := transCmp_ixCompare hs.type

/-- `ix_compare` looks at the bytes of the keys and at no others. -/
theorem cmp_congr (hs : h.Sorted) (ha : ∀ j, j < h.colLen → a j = a' j)
    (hb : ∀ j, j < h.colLen → b j = b' j) : h.cmp a b = h.cmp a' b' := by
  have hint := hs.intLen
  have htype := hs.type
  unfold cmp ixCompare
  cases hc : h.colType with
  | typeInt =>
      have hlen := hint hc
      have hza : int32At a 0 = int32At a' 0 := int32At_congr fun k hk => ha (0 + k) (by omega)
      have hzb : int32At b 0 = int32At b' 0 := int32At_congr fun k hk => hb (0 + k) (by omega)
      dsimp only
      rw [hza, hzb]
  | typeFloat => exact absurd hc htype
  | typeString => exact memcmp_congr ha hb

/-- A key is there iff it is at the lower bound. -/
theorem hit_iff (hs : h.Sorted) : ((h.lowerBound key : Int) < h.numKey
    ∧ h.cmp (h.getKey (h.lowerBound key)) key = .eq) ↔ h.Has key := by
  have := hs.transCmp
  have hnum := hs.numKey_nonneg
  refine Iff.trans (and_congr_left' ?_) (exists_eq_iff hs.ascending).symm
  unfold lowerBound
  omega

theorem lowerBound_of_eq (hs : h.Sorted) (hi : i < h.numKey.toNat)
    (heq : h.cmp (h.getKey i) key = .eq) : h.lowerBound key = i :=
  have := hs.transCmp
  lowerPos_of_eq hs.ascending hi heq

theorem lowerBound_le (hs : h.Sorted) (key : Nat → UInt8) : h.lowerBound key ≤ h.numKey.toNat :=
  have := hs.transCmp
  (lowerPos_spec hs.ascending key).1

/-- **`LeafLookup` finds what is paired with the key.** -/
theorem leafLookup_iff (hs : h.Sorted) : h.leafLookup key = some v
    ↔ ∃ i, i < h.numKey.toNat ∧ h.cmp (h.getKey i) key = .eq ∧ h.getRid i = v := by
  unfold leafLookup
  dsimp only
  by_cases hhit : (h.lowerBound key : Int) < h.numKey
      ∧ h.cmp (h.getKey (h.lowerBound key)) key = .eq
  · rw [if_pos hhit, Option.some.injEq]
    constructor
    · intro hv
      exact ⟨_, by omega, hhit.2, hv⟩
    · rintro ⟨i, hi, heq, hv⟩
      rw [hs.lowerBound_of_eq hi heq]
      exact hv
  · rw [if_neg hhit]
    refine ⟨fun hv => absurd hv (by simp), ?_⟩
    rintro ⟨i, hi, heq, _⟩
    exact absurd (hs.hit_iff.mpr ⟨i, hi, heq⟩) hhit

/-! ## `Insert` and `Remove` -/

/-- A key that is not there goes to the lower bound, and the keys ascend as before. -/
theorem insertPairs (hs : h.Sorted) (hroom : h.numKey < h.getMaxSize) (hno : ¬ h.Has key) :
    (h.insertPairs (h.lowerBound key) key rid 1).Sorted := by
  have hfit : h.numKey + (1 : Nat) ≤ h.getMaxSize := by omega
  have htrans := hs.transCmp
  have hcap := hs.layout.1
  have hnonneg := hs.numKey_nonneg
  have hle := hs.lowerBound_le key
  have hnum : (h.insertPairs (h.lowerBound key) key rid 1).numKey.toNat = h.numKey.toNat + 1 := by
    rw [numKey_insertPairs _ _ _ hs.toSound hfit]
    omega
  refine ⟨hs.toSound.insertPairs hfit, hs.type, hs.intLen, ?_⟩
  rw [hnum]
  refine (ascending_insert hs.ascending fun i hi heq => hno ⟨i, hi, heq⟩).congr ?_
  have hbyte : ∀ i, i < h.numKey.toNat + 1 → ∀ j, j < h.colLen →
      (h.insertPairs (h.lowerBound key) key rid 1).getKey i j
        = (if i < h.lowerBound key then h.getKey i
          else if i = h.lowerBound key then key else h.getKey (i - 1)) j := by
    intro i hi j hj
    rw [getKey_insertPairs _ _ _ hs.toSound hle (by omega) hj]
    rcases Nat.lt_trichotomy i (h.lowerBound key) with hlt | heq | hgt
    · rw [if_pos hlt, if_pos hlt]
    · rw [if_neg (by omega), if_pos (by omega), if_neg (by omega), if_pos heq, heq, Nat.sub_self,
        Nat.zero_mul, Nat.zero_add]
    · rw [if_neg (by omega), if_neg (by omega), if_pos hi, if_neg (by omega), if_neg (by omega)]
  exact fun i j hi hj => hs.cmp_congr (hbyte i hi) (hbyte j hj)

theorem erasePair (hs : h.Sorted) (hpos : pos < h.numKey.toNat) : (h.erasePair pos).Sorted := by
  have hcap := hs.layout.2.2.2
  have hnum : (h.erasePair pos).numKey.toNat = h.numKey.toNat - 1 := by
    rw [numKey_erasePair hs.toSound (by omega)]
    omega
  refine ⟨hs.toSound.erasePair hpos, hs.type, hs.intLen, ?_⟩
  rw [hnum]
  refine (ascending_erase hs.ascending pos).congr ?_
  have hbyte : ∀ i, i < h.numKey.toNat - 1 → ∀ j, j < h.colLen → (h.erasePair pos).getKey i j
      = (if i < pos then h.getKey i else h.getKey (i + 1)) j := by
    intro i hi j hj
    rw [getKey_erasePair _ hs.toSound (by omega) hj]
    by_cases hlt : i < pos
    · rw [if_neg (by omega), if_pos hlt]
    · rw [if_pos (by omega), if_neg hlt]
  exact fun i j hi hj => hs.cmp_congr (hbyte i hi) (hbyte j hj)

/-- **`Insert` of a key that is there.** -/
theorem insert_of_has (hs : h.Sorted) (hhas : h.Has key) : h.insert key v = (h, h.numKey) :=
  if_pos (hs.hit_iff.mpr hhas)

/-- **`Insert` of another key.** -/
theorem insert_of_not (hs : h.Sorted) (hroom : h.numKey < h.getMaxSize) (hno : ¬ h.Has key)
    (hp : IsInt32 v.pageNo) (hsl : IsInt32 v.slotNo) : (h.insert key v).1.Sorted
      ∧ (h.insert key v).1.entries = h.entries.take (h.lowerBound key)
        ++ (firstBytes key h.colLen, v) :: h.entries.drop (h.lowerBound key)
      ∧ (h.insert key v).2 = h.numKey + 1 := by
  have hfit : h.numKey + (1 : Nat) ≤ h.getMaxSize := by omega
  have heq : h.insert key v = (h.insertPairs (h.lowerBound key) key (ridBytes v) 1,
      (h.insertPairs (h.lowerBound key) key (ridBytes v) 1).numKey) :=
    if_neg fun hhit => hno (hs.hit_iff.mp hhit)
  rw [heq]
  refine ⟨hs.insertPairs hroom hno, ?_, numKey_insertPairs _ _ _ hs.toSound hfit⟩
  have hpair : h.pairsAt key (ridBytes v) 1 = [(firstBytes key h.colLen, v)] := by
    have hrid : ridAt (ridBytes v) (0 * 8) = v := ridAt_ridBytes hp hsl
    have hkey : (fun j => key (0 * h.colLen + j)) = key :=
      funext fun j => congrArg key (by omega)
    rw [pairsAt, List.range_one, List.map_singleton, hrid, hkey]
  rw [entries_insertPairs hs.toSound (hs.lowerBound_le key) hfit, hpair, List.append_assoc]
  rfl

/-- **`Remove` of a key that is there.** -/
theorem remove_of_eq (hs : h.Sorted) (hi : i < h.numKey.toNat)
    (heq : h.cmp (h.getKey i) key = .eq) : (h.remove key).1.Sorted
      ∧ (h.remove key).1.entries = h.entries.take i ++ h.entries.drop (i + 1)
      ∧ (h.remove key).2 = h.numKey - 1 := by
  have hremove : h.remove key = (h.erasePair i, (h.erasePair i).numKey) := by
    rw [← hs.lowerBound_of_eq hi heq]
    exact if_pos (hs.hit_iff.mpr ⟨i, hi, heq⟩)
  rw [hremove]
  exact ⟨hs.erasePair hi, entries_erasePair hs.toSound hi, numKey_erasePair hs.toSound (by omega)⟩

/-- **`Remove` of another key.** -/
theorem remove_of_not (hs : h.Sorted) (hno : ¬ h.Has key) : h.remove key = (h, h.numKey) :=
  if_neg fun hhit => hno (hs.hit_iff.mp hhit)

end Sorted

/-- **A node is a sorted map.** Both arrays are spliced alike at every position. With keys that ascend
under `ix_compare`, the searches count the smaller keys, `LeafLookup` finds what a key is paired with,
and `Insert` and `Remove` add and take away the pair of their key and leave the others as they are. -/
theorem pairedArrays_sortedMap (hs : h.Sound) :
    (∀ (pos n : Nat) (key rid : Nat → UInt8),
      pos ≤ h.numKey.toNat → h.numKey + n ≤ h.getMaxSize →
      (h.insertPairs pos key rid n).entries
        = h.entries.take pos ++ h.pairsAt key rid n ++ h.entries.drop pos)
    ∧ (∀ pos : Nat, pos < h.numKey.toNat →
      (h.erasePair pos).entries = h.entries.take pos ++ h.entries.drop (pos + 1))
    ∧ (h.Sorted → h.numKey < h.getMaxSize → ∀ key,
      h.lowerBound key = Nat.count (fun i => h.cmp (h.getKey i) key = .lt) h.numKey.toNat
      ∧ h.upperBound key = Nat.count (fun i => h.cmp (h.getKey i) key ≠ .gt) h.numKey.toNat
      ∧ (∀ value, h.leafLookup key = some value
        ↔ ∃ i, i < h.numKey.toNat ∧ h.cmp (h.getKey i) key = .eq ∧ h.getRid i = value)
      ∧ (h.Has key → ∀ value, h.insert key value = (h, h.numKey))
      ∧ (¬ h.Has key → ∀ value : Rid, IsInt32 value.pageNo → IsInt32 value.slotNo →
        (h.insert key value).1.Sorted
        ∧ (h.insert key value).1.entries = h.entries.take (h.lowerBound key)
          ++ (firstBytes key h.colLen, value) :: h.entries.drop (h.lowerBound key)
        ∧ (h.insert key value).2 = h.numKey + 1)
      ∧ (∀ i, i < h.numKey.toNat → h.cmp (h.getKey i) key = .eq →
        (h.remove key).1.Sorted
        ∧ (h.remove key).1.entries = h.entries.take i ++ h.entries.drop (i + 1)
        ∧ (h.remove key).2 = h.numKey - 1)
      ∧ (¬ h.Has key → h.remove key = (h, h.numKey))) := by
  refine ⟨fun pos n key rid hpos hfit => entries_insertPairs hs hpos hfit,
    fun pos hpos => entries_erasePair hs hpos, fun hsorted hroom key => ?_⟩
  have htrans := hsorted.transCmp
  refine ⟨lowerPos_eq_count hsorted.ascending key, upperPos_eq_count hsorted.ascending key,
    fun value => hsorted.leafLookup_iff, fun hhas value => hsorted.insert_of_has hhas, ?_, ?_,
    hsorted.remove_of_not⟩
  · exact fun hno value hp hsl => hsorted.insert_of_not hroom hno hp hsl
  · exact fun i hi heq => hsorted.remove_of_eq hi heq

/-- A leaf of a file with `int` keys, which has 5 and 9. -/
def fiveNine : IxNodeHandle where
  fileHdr := ⟨-1, 3, 2, 0, 4, 338, 1356, 2, 2⟩
  data := putInt32 (putInt32 (putInt32 (fun _ => 0) 8 2) 24 5) 28 9
  colType := .typeInt
  isType := rfl

theorem fiveNine_sorted : fiveNine.Sorted := by
  have hnum : fiveNine.numKey = 2 := by decide
  refine ⟨⟨by decide, by decide, by decide, by decide, by decide, by decide⟩, by decide,
    fun _ => by decide, ?_⟩
  rw [hnum]
  intro i j hij hj
  have hi0 : i = 0 := by omega
  have hj1 : j = 1 := by omega
  subst hi0 hj1
  decide

theorem pairedArrays_sortedMap_fiveNine :
    (fiveNine.insert (putInt32 (fun _ => 0) 0 7) ⟨4, 1⟩).1.entries
      = [([5, 0, 0, 0], ⟨0, 0⟩), ([7, 0, 0, 0], ⟨4, 1⟩), ([9, 0, 0, 0], ⟨0, 0⟩)] := by
  have hmap := (pairedArrays_sortedMap fiveNine_sorted.toSound).2.2 fiveNine_sorted (by decide)
    (putInt32 (fun _ => 0) 0 7)
  exact (hmap.2.2.2.2.1 (by decide) ⟨4, 1⟩ (by decide) (by decide)).2.1.trans (by decide)

end IxNodeHandle

end Rucbase
