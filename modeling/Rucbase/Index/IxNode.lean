import Rucbase.Lib.Bisect
import Rucbase.Lib.Blocks
import Rucbase.Storage.Page
import Mathlib.Order.Defs.LinearOrder
import Mathlib.Data.List.Basic
import Mathlib.Data.List.TakeDrop

/-!
# `IxNodeHandle`

`index/ix_node_handle.{h,cpp}`: a node of the tree and the operations inside it. The key and
rid arrays of a page are functions of the slot; only the first `num_key` slots count, but the
others keep whatever was there before and can be read. The key type is that of `ix_compare`: a
linear order, and `memcmp` of two keys is 0 for equal keys only.
-/

namespace Rucbase

open Lib

/-- A page of the index: the fields of `IxPageHdr` that are read, and the two arrays. -/
structure IxNode (κ : Type) where
  parent : Int
  numKey : Nat
  isLeaf : Bool
  prevLeaf : Int
  nextLeaf : Int
  keys : Nat → κ
  rids : Nat → Rid

namespace IxNode

variable {κ : Type}

section

variable [LinearOrder κ]

/-- `lower_bound`: the first slot with a key `>= target`. -/
def lowerBound (n : IxNode κ) (target : κ) : Nat :=
  bisect (fun mid => n.keys mid < target) n.numKey 0 n.numKey

/-- `upper_bound`: the first slot with a key `> target`. -/
def upperBound (n : IxNode κ) (target : κ) : Nat :=
  bisect (fun mid => n.keys mid ≤ target) n.numKey 0 n.numKey

/-- `LeafLookup`. -/
def leafLookup (n : IxNode κ) (key : κ) : Option Rid :=
  let idx := n.lowerBound key
  if idx < n.numKey ∧ n.keys idx = key then some (n.rids idx) else none

/-- `InternalLookup`. -/
def internalLookup (n : IxNode κ) (key : κ) : Int := (n.rids (n.upperBound key)).pageNo

end

/-- `insert_pairs`. -/
def insertPairs (n : IxNode κ) (pos : Nat) (key : Nat → κ) (rid : Nat → Rid) (cnt : Nat) :
    IxNode κ :=
  { n with
    keys := fun i =>
      if i < pos then n.keys i
      else if i < pos + cnt then key (i - pos)
      else if i < n.numKey + cnt then n.keys (i - cnt)
      else n.keys i
    rids := fun i =>
      if i < pos then n.rids i
      else if i < pos + cnt then rid (i - pos)
      else if i < n.numKey + cnt then n.rids (i - cnt)
      else n.rids i
    numKey := n.numKey + cnt }

/-- `insert_pair`. -/
def insertPair (n : IxNode κ) (pos : Nat) (key : κ) (rid : Rid) : IxNode κ :=
  n.insertPairs pos (fun _ => key) (fun _ => rid) 1

/-- `erase_pair`. -/
def erasePair (n : IxNode κ) (pos : Nat) : IxNode κ :=
  { n with
    keys := fun i => if pos ≤ i ∧ i < n.numKey - 1 then n.keys (i + 1) else n.keys i
    rids := fun i => if pos ≤ i ∧ i < n.numKey - 1 then n.rids (i + 1) else n.rids i
    numKey := n.numKey - 1 }

/-- `set_key`. -/
def setKey (n : IxNode κ) (idx : Nat) (key : κ) : IxNode κ :=
  { n with keys := Function.update n.keys idx key }

section

variable [LinearOrder κ]

/-- `Insert`. -/
def insert (n : IxNode κ) (key : κ) (value : Rid) : IxNode κ :=
  let pos := n.lowerBound key
  if pos < n.numKey ∧ n.keys pos = key then n
  else n.insertPairs pos (fun _ => key) (fun _ => value) 1

/-- `Remove`. -/
def remove (n : IxNode κ) (key : κ) : IxNode κ :=
  let pos := n.lowerBound key
  if pos < n.numKey ∧ n.keys pos = key then n.erasePair pos else n

end

/-- The loop of `find_child`, from slot `i` on; `none` when the assertion behind it fails. -/
def findFrom (n : IxNode κ) (child : Int) : Nat → Nat → Option Nat
  | 0, _ => none
  | fuel + 1, i => if (n.rids i).pageNo = child then some i else findFrom n child fuel (i + 1)

/-- `find_child`. -/
def findChild (n : IxNode κ) (child : Int) : Option Nat := n.findFrom child n.numKey 0

/-! ## The live entries as a list -/

/-- The entries that count. -/
def entries (n : IxNode κ) : List (κ × Rid) := (List.range n.numKey).map fun i => (n.keys i, n.rids i)

/-- The first `k` pairs of two arrays. -/
def pairs (key : Nat → κ) (rid : Nat → Rid) (k : Nat) : List (κ × Rid) :=
  (List.range k).map fun i => (key i, rid i)

variable {n : IxNode κ} {pos cnt i : Nat} {key : Nat → κ} {rid : Nat → Rid} {k : κ} {v : Rid}

@[simp] theorem length_entries : n.entries.length = n.numKey := by
  simp [entries]

@[simp] theorem length_pairs : (pairs key rid cnt).length = cnt := by
  simp [pairs]

theorem getElem?_entries (h : i < n.numKey) : n.entries[i]? = some (n.keys i, n.rids i) := by
  simp [entries, h]

/-- Only the first `cnt` pairs are read. -/
theorem insertPairs_congr {key' : Nat → κ} {rid' : Nat → Rid} (hk : ∀ i, i < cnt → key i = key' i)
    (hr : ∀ i, i < cnt → rid i = rid' i) :
    n.insertPairs pos key rid cnt = n.insertPairs pos key' rid' cnt := by
  unfold insertPairs
  congr 1
  · funext i
    split
    · rfl
    · split
      · exact hk _ (by omega)
      · rfl
  · funext i
    split
    · rfl
    · split
      · exact hr _ (by omega)
      · rfl

/-- **`insert_pairs` splices.** -/
theorem entries_insertPairs (hpos : pos ≤ n.numKey) :
    (n.insertPairs pos key rid cnt).entries
      = n.entries.take pos ++ pairs key rid cnt ++ n.entries.drop pos := by
  have hlen : (n.entries.take pos).length = pos := by
    rw [List.length_take, length_entries]
    omega
  refine List.ext_getElem? (fun i => ?_)
  by_cases hi : i < n.numKey + cnt
  · rw [getElem?_entries (n := n.insertPairs pos key rid cnt) hi]
    unfold insertPairs
    dsimp only
    -- the three stretches: before, the new pairs, behind
    rcases Nat.lt_or_ge i pos with h1 | h1
    · rw [if_pos h1, if_pos h1, List.append_assoc, List.getElem?_append_left (by omega),
        List.getElem?_take_of_lt h1, getElem?_entries (by omega)]
    · have hn1 : ¬ i < pos := by omega
      rw [if_neg hn1, if_neg hn1, List.append_assoc, List.getElem?_append_right (by omega), hlen]
      rcases Nat.lt_or_ge i (pos + cnt) with h2 | h2
      · rw [if_pos h2, if_pos h2, List.getElem?_append_left (by rw [length_pairs]; omega)]
        have : i - pos < cnt := by omega
        simp [pairs, this]
      · have hn2 : ¬ i < pos + cnt := by omega
        rw [if_neg hn2, if_neg hn2, if_pos hi, if_pos hi,
          List.getElem?_append_right (by rw [length_pairs]; omega), length_pairs,
          List.getElem?_drop, getElem?_entries (by omega)]
        have : pos + (i - pos - cnt) = i - cnt := by omega
        rw [this]
  · rw [List.getElem?_eq_none, List.getElem?_eq_none]
    · simp only [List.length_append, length_pairs, List.length_drop, hlen, length_entries]
      omega
    · rw [length_entries]
      exact Nat.le_of_not_lt hi

theorem entries_insertPair (hpos : pos ≤ n.numKey) :
    (n.insertPair pos k v).entries = n.entries.take pos ++ (k, v) :: n.entries.drop pos := by
  rw [insertPair, entries_insertPairs hpos, List.append_assoc]
  rfl

/-- **`erase_pair` drops one entry.** -/
theorem entries_erasePair (hpos : pos < n.numKey) :
    (n.erasePair pos).entries = n.entries.take pos ++ n.entries.drop (pos + 1) := by
  have hlen : (n.entries.take pos).length = pos := by
    rw [List.length_take, length_entries]
    omega
  refine List.ext_getElem? (fun i => ?_)
  by_cases hi : i < n.numKey - 1
  · rw [getElem?_entries (n := n.erasePair pos) hi]
    unfold erasePair
    dsimp only
    rcases Nat.lt_or_ge i pos with h1 | h1
    · rw [if_neg (by omega), if_neg (by omega), List.getElem?_append_left (by omega),
        List.getElem?_take_of_lt h1, getElem?_entries (by omega)]
    · rw [if_pos ⟨h1, hi⟩, if_pos ⟨h1, hi⟩, List.getElem?_append_right (by omega), hlen,
        List.getElem?_drop, getElem?_entries (by omega)]
      have : pos + 1 + (i - pos) = i + 1 := by omega
      rw [this]
  · rw [List.getElem?_eq_none, List.getElem?_eq_none]
    · simp only [List.length_append, List.length_drop, hlen, length_entries]
      omega
    · rw [length_entries]
      exact Nat.le_of_not_lt hi

theorem entries_setKey (hpos : pos < n.numKey) :
    (n.setKey pos k).entries = n.entries.take pos ++ (k, n.rids pos) :: n.entries.drop (pos + 1) := by
  have hlen : (n.entries.take pos).length = pos := by
    rw [List.length_take, length_entries]
    omega
  refine List.ext_getElem? (fun i => ?_)
  by_cases hi : i < n.numKey
  · rw [getElem?_entries (n := n.setKey pos k) hi]
    unfold setKey
    dsimp only
    rcases Nat.lt_trichotomy i pos with h1 | h1 | h1
    · rw [Function.update_of_ne (by omega), List.getElem?_append_left (by omega),
        List.getElem?_take_of_lt h1, getElem?_entries hi]
    · rw [h1, Function.update_self, List.getElem?_append_right (by omega), hlen, Nat.sub_self]
      rfl
    · rw [Function.update_of_ne (by omega), List.getElem?_append_right (by omega), hlen]
      have : i - pos = (i - pos - 1) + 1 := by omega
      rw [this, List.getElem?_cons_succ, List.getElem?_drop, getElem?_entries (by omega)]
      have : pos + 1 + (i - pos - 1) = i := by omega
      rw [this]
  · rw [List.getElem?_eq_none, List.getElem?_eq_none]
    · simp only [List.length_append, List.length_cons, List.length_drop, hlen, length_entries]
      omega
    · rw [length_entries]
      exact Nat.le_of_not_lt hi

/-- The entries, cut at a slot. -/
theorem entries_at {L₁ L₂ : List (κ × Rid)} {e : κ × Rid} (h : n.entries = L₁ ++ e :: L₂) :
    L₁.length < n.numKey ∧ n.entries.take L₁.length = L₁ ∧ n.entries.drop (L₁.length + 1) = L₂
      ∧ e = (n.keys L₁.length, n.rids L₁.length) := by
  have hlen : n.numKey = L₁.length + (L₂.length + 1) := by
    rw [← length_entries, h, List.length_append, List.length_cons]
  have hat := getElem?_entries (n := n) (i := L₁.length) (by omega)
  rw [h, List.getElem?_append_right (Nat.le_refl _), Nat.sub_self, List.getElem?_cons_zero,
    Option.some.injEq] at hat
  refine ⟨by omega, by rw [h, List.take_left' rfl], ?_, hat⟩
  rw [h, List.append_cons, List.drop_left' (by simp)]

theorem entries_erasePair_at {L₁ L₂ : List (κ × Rid)} {e : κ × Rid}
    (h : n.entries = L₁ ++ e :: L₂) : (n.erasePair L₁.length).entries = L₁ ++ L₂ := by
  obtain ⟨hlt, htake, hdrop, _⟩ := entries_at h
  rw [entries_erasePair hlt, htake, hdrop]

theorem entries_setKey_at {L₁ L₂ : List (κ × Rid)} {e : κ × Rid} (h : n.entries = L₁ ++ e :: L₂) :
    (n.setKey L₁.length k).entries = L₁ ++ (k, e.2) :: L₂ := by
  obtain ⟨hlt, htake, hdrop, rfl⟩ := entries_at h
  rw [entries_setKey hlt, htake, hdrop]

/-- Cutting the entries at `cnt` is lowering `num_key`. -/
theorem entries_truncate (h : cnt ≤ n.numKey) :
    ({ n with numKey := cnt } : IxNode κ).entries = n.entries.take cnt := by
  unfold entries
  rw [← List.map_take, List.take_range, Nat.min_eq_left h]

/-- What a source array holds behind `pos` are the entries there. -/
theorem pairs_drop (h : pos + cnt = n.numKey) :
    pairs (fun i => n.keys (pos + i)) (fun i => n.rids (pos + i)) cnt = n.entries.drop pos := by
  refine List.ext_getElem? (fun i => ?_)
  rw [List.getElem?_drop]
  by_cases hi : i < cnt
  · rw [getElem?_entries (by omega)]
    simp [pairs, hi]
  · rw [List.getElem?_eq_none, List.getElem?_eq_none]
    · rw [length_entries]
      omega
    · rw [length_pairs]
      omega

theorem pairs_entries : pairs n.keys n.rids n.numKey = n.entries := rfl

/-! ## What `Insert` and `Remove` leave alone -/

section

variable [LinearOrder κ]

theorem insert_fields : (n.insert k v).isLeaf = n.isLeaf ∧ (n.insert k v).parent = n.parent
    ∧ (n.insert k v).nextLeaf = n.nextLeaf ∧ (n.insert k v).prevLeaf = n.prevLeaf := by
  unfold insert
  dsimp only
  split <;> exact ⟨rfl, rfl, rfl, rfl⟩

theorem remove_fields : (n.remove k).isLeaf = n.isLeaf ∧ (n.remove k).parent = n.parent
    ∧ (n.remove k).nextLeaf = n.nextLeaf ∧ (n.remove k).prevLeaf = n.prevLeaf := by
  unfold remove
  dsimp only
  split <;> exact ⟨rfl, rfl, rfl, rfl⟩

theorem numKey_insert : n.numKey ≤ (n.insert k v).numKey ∧ (n.insert k v).numKey ≤ n.numKey + 1 := by
  unfold insert
  dsimp only
  split
  · exact ⟨Nat.le_refl _, Nat.le_succ _⟩
  · exact ⟨Nat.le_succ _, Nat.le_refl _⟩

end

/-! ## Sorted nodes -/

section

variable [LinearOrder κ]

theorem keys_lt {j : Nat} (hinc : Increasing n.entries) (hij : i < j) (hj : j < n.numKey) :
    n.keys i < n.keys j := by
  have hi' := getElem?_entries (n := n) (i := i) (by omega)
  have hj' := getElem?_entries (n := n) (i := j) hj
  obtain ⟨hil, hie⟩ := List.getElem?_eq_some_iff.mp hi'
  obtain ⟨hjl, hje⟩ := List.getElem?_eq_some_iff.mp hj'
  have := List.pairwise_iff_getElem.mp hinc i j hil hjl hij
  rwa [hie, hje] at this

theorem keys_le {j : Nat} (hinc : Increasing n.entries) (hij : i ≤ j) (hj : j < n.numKey) :
    n.keys i ≤ n.keys j := by
  rcases Nat.eq_or_lt_of_le hij with rfl | hlt
  · exact le_refl _
  · exact le_of_lt (keys_lt hinc hlt hj)

/-- **`lower_bound` of a sorted node** cuts it before the first key that is not smaller. -/
theorem lowerBound_spec (hinc : Increasing n.entries) (k : κ) : n.lowerBound k ≤ n.numKey
    ∧ (∀ i, i < n.lowerBound k → n.keys i < k)
    ∧ ∀ i, n.lowerBound k ≤ i → i < n.numKey → k ≤ n.keys i := by
  obtain ⟨h1, h2, h3⟩ := bisect_mono (p := fun mid => decide (n.keys mid < k)) (n := n.numKey)
    (fun i j hij hj hp => by
      rw [decide_eq_true_eq] at hp ⊢
      exact lt_of_le_of_lt (keys_le hinc hij hj) hp)
  refine ⟨h1, fun i hi => of_decide_eq_true (h2 i hi), fun i hi hn => ?_⟩
  exact not_lt.mp (of_decide_eq_false (h3 i hi hn))

/-- **`upper_bound` of a sorted node** cuts it before the first key that is greater. -/
theorem upperBound_spec (hinc : Increasing n.entries) (k : κ) : n.upperBound k ≤ n.numKey
    ∧ (∀ i, i < n.upperBound k → n.keys i ≤ k)
    ∧ ∀ i, n.upperBound k ≤ i → i < n.numKey → k < n.keys i := by
  obtain ⟨h1, h2, h3⟩ := bisect_mono (p := fun mid => decide (n.keys mid ≤ k)) (n := n.numKey)
    (fun i j hij hj hp => by
      rw [decide_eq_true_eq] at hp ⊢
      exact le_trans (keys_le hinc hij hj) hp)
  refine ⟨h1, fun i hi => of_decide_eq_true (h2 i hi), fun i hi hn => ?_⟩
  exact not_le.mp (of_decide_eq_false (h3 i hi hn))

omit [LinearOrder κ] in
theorem mem_entries {e : κ × Rid} : e ∈ n.entries ↔ ∃ i, i < n.numKey ∧ e = (n.keys i, n.rids i) := by
  unfold entries
  rw [List.mem_map]
  constructor
  · rintro ⟨i, hi, rfl⟩
    exact ⟨i, List.mem_range.mp hi, rfl⟩
  · rintro ⟨i, hi, rfl⟩
    exact ⟨i, List.mem_range.mpr hi, rfl⟩

omit [LinearOrder κ] in
/-- Counting the entries of a stretch at the front. -/
theorem countP_entries {q : κ × Rid → Bool} {m : Nat} (hm : m ≤ n.numKey)
    (htrue : ∀ i, i < m → q (n.keys i, n.rids i) = true)
    (hfalse : ∀ i, m ≤ i → i < n.numKey → q (n.keys i, n.rids i) = false) :
    n.entries.countP q = m := by
  have hlen : (n.entries.take m).length = m := by
    rw [List.length_take, length_entries]
    omega
  have hfront : (n.entries.take m).countP q = m := by
    refine Eq.trans (List.countP_eq_length.mpr (fun e he => ?_)) hlen
    obtain ⟨i, hie⟩ := List.mem_iff_getElem?.mp he
    rw [List.getElem?_take] at hie
    split at hie
    · next hi =>
        rw [getElem?_entries (by omega), Option.some.injEq] at hie
        rw [← hie]
        exact htrue i hi
    · exact absurd hie (by simp)
  have hback : (n.entries.drop m).countP q = 0 := by
    rw [List.countP_eq_zero]
    intro e he
    obtain ⟨i, hie⟩ := List.mem_iff_getElem?.mp he
    rw [List.getElem?_drop] at hie
    have hlt : m + i < n.numKey := by
      rw [← length_entries]
      exact (List.getElem?_eq_some_iff.mp hie).1
    rw [getElem?_entries hlt, Option.some.injEq] at hie
    rw [← hie, hfalse _ (by omega) hlt]
    simp
  rw [← List.take_append_drop m n.entries, List.countP_append, hfront, hback, Nat.add_zero]

/-- `lower_bound` is the number of smaller keys. -/
theorem countP_lowerBound (hinc : Increasing n.entries) (k : κ) :
    n.entries.countP (fun e => e.1 < k) = n.lowerBound k := by
  obtain ⟨h1, h2, h3⟩ := lowerBound_spec hinc k
  refine countP_entries h1 (fun i hi => decide_eq_true (h2 i hi)) (fun i hi hlt => ?_)
  exact decide_eq_false (not_lt.mpr (h3 i hi hlt))

/-- `upper_bound` is the number of keys that are not greater. -/
theorem countP_upperBound (hinc : Increasing n.entries) (k : κ) :
    n.entries.countP (fun e => e.1 ≤ k) = n.upperBound k := by
  obtain ⟨h1, h2, h3⟩ := upperBound_spec hinc k
  refine countP_entries h1 (fun i hi => decide_eq_true (h2 i hi)) (fun i hi hlt => ?_)
  exact decide_eq_false (not_le.mpr (h3 i hi hlt))

/-- The slot a stored key is found at. -/
theorem lowerBound_hit {L₁ L₂ : List (κ × Rid)} (hinc : Increasing n.entries)
    (hent : n.entries = L₁ ++ (k, v) :: L₂) : n.lowerBound k = L₁.length := by
  obtain ⟨hlt, _, _, he⟩ := entries_at hent
  obtain ⟨_, h2, h3⟩ := lowerBound_spec hinc k
  have hk : n.keys L₁.length = k := (congrArg Prod.fst he).symm
  rcases Nat.lt_trichotomy (n.lowerBound k) L₁.length with h | h | h
  · have hle := h3 _ (Nat.le_refl _) (by omega)
    have hlt' := keys_lt hinc h hlt
    rw [hk] at hlt'
    exact absurd hle (not_le.mpr hlt')
  · exact h
  · have := h2 _ h
    rw [hk] at this
    exact absurd this (lt_irrefl _)

/-- A key that is not stored is not found. -/
theorem lowerBound_miss (hk : ∀ e ∈ n.entries, e.1 ≠ k) :
    ¬ (n.lowerBound k < n.numKey ∧ n.keys (n.lowerBound k) = k) := by
  rintro ⟨hlt, heq⟩
  exact hk _ (mem_entries.mpr ⟨_, hlt, rfl⟩) heq

/-- **`LeafLookup` of a sorted node.** -/
theorem leafLookup_eq_some (hinc : Increasing n.entries) :
    n.leafLookup k = some v ↔ (k, v) ∈ n.entries := by
  constructor
  · intro h
    unfold leafLookup at h
    dsimp only at h
    split at h
    · next hc =>
        rw [Option.some.injEq] at h
        exact mem_entries.mpr ⟨_, hc.1, by rw [hc.2, h]⟩
    · exact absurd h (by simp)
  · intro hmem
    obtain ⟨L₁, L₂, hent⟩ := List.append_of_mem hmem
    obtain ⟨hlt, _, _, he⟩ := entries_at hent
    rw [Prod.mk.injEq] at he
    unfold leafLookup
    dsimp only
    rw [lowerBound_hit hinc hent, if_pos ⟨hlt, he.1.symm⟩, he.2]

/-- **`Insert` of a key that is there** does nothing. -/
theorem insert_of_mem (hinc : Increasing n.entries) {v' : Rid} (hmem : (k, v') ∈ n.entries) :
    n.insert k v = n := by
  obtain ⟨L₁, L₂, hent⟩ := List.append_of_mem hmem
  obtain ⟨hlt, _, _, he⟩ := entries_at hent
  rw [Prod.mk.injEq] at he
  unfold insert
  dsimp only
  rw [lowerBound_hit hinc hent, if_pos ⟨hlt, he.1.symm⟩]

/-- **`Insert` of a new key** puts it where it belongs. -/
theorem entries_insert (hinc : Increasing n.entries) (hk : ∀ e ∈ n.entries, e.1 ≠ k) :
    ∃ L₁ L₂, n.entries = L₁ ++ L₂ ∧ (n.insert k v).entries = L₁ ++ (k, v) :: L₂
      ∧ (∀ e ∈ L₁, e.1 < k) ∧ ∀ e ∈ L₂, k < e.1 := by
  obtain ⟨h1, h2, h3⟩ := lowerBound_spec hinc k
  refine ⟨n.entries.take (n.lowerBound k), n.entries.drop (n.lowerBound k),
    (List.take_append_drop _ _).symm, ?_, fun e he => ?_, fun e he => ?_⟩
  · unfold insert
    dsimp only
    rw [if_neg (lowerBound_miss hk)]
    exact entries_insertPair h1
  · obtain ⟨i, hie⟩ := List.mem_iff_getElem?.mp he
    rw [List.getElem?_take] at hie
    split at hie
    · next hlt =>
        rw [getElem?_entries (by omega), Option.some.injEq] at hie
        rw [← hie]
        exact h2 i hlt
    · exact absurd hie (by simp)
  · obtain ⟨i, hie⟩ := List.mem_iff_getElem?.mp he
    rw [List.getElem?_drop] at hie
    have hlt : n.lowerBound k + i < n.numKey := by
      rw [← length_entries]
      exact (List.getElem?_eq_some_iff.mp hie).1
    refine lt_of_le_of_ne ?_ (Ne.symm (hk e (List.mem_of_mem_drop he)))
    rw [getElem?_entries hlt, Option.some.injEq] at hie
    rw [← hie]
    exact h3 _ (by omega) hlt

/-- **`Remove` of a key that is there.** -/
theorem entries_remove {L₁ L₂ : List (κ × Rid)} (hinc : Increasing n.entries)
    (hent : n.entries = L₁ ++ (k, v) :: L₂) : (n.remove k).entries = L₁ ++ L₂
      ∧ (n.remove k).numKey + 1 = n.numKey := by
  obtain ⟨hlt, _, _, he⟩ := entries_at hent
  rw [Prod.mk.injEq] at he
  unfold remove
  dsimp only
  rw [lowerBound_hit hinc hent, if_pos ⟨hlt, he.1.symm⟩]
  refine ⟨entries_erasePair_at hent, ?_⟩
  show n.numKey - 1 + 1 = _
  omega

/-- **`Remove` of a key that is not there** does nothing. -/
theorem remove_of_not_mem (hk : ∀ e ∈ n.entries, e.1 ≠ k) : n.remove k = n := by
  unfold remove
  dsimp only
  rw [if_neg (lowerBound_miss hk)]

end

/-! ## Finding a child -/

theorem findFrom_spec {child : Int} {fuel j : Nat} (hj : i ≤ j) (hlt : j < i + fuel)
    (hhit : (n.rids j).pageNo = child) (hmiss : ∀ l, i ≤ l → l < j → (n.rids l).pageNo ≠ child) :
    n.findFrom child fuel i = some j := by
  induction fuel generalizing i with
  | zero => omega
  | succ fuel ih =>
      unfold findFrom
      by_cases hi : (n.rids i).pageNo = child
      · rw [if_pos hi]
        by_contra hne
        have : i ≠ j := fun heq => hne (by rw [heq])
        exact hmiss i (by omega) (by omega) hi
      · rw [if_neg hi]
        have : i ≠ j := fun heq => hi (by rw [heq]; exact hhit)
        exact ih (by omega) (by omega) (fun l hl => hmiss l (by omega))

/-- **`find_child` finds the first entry with the page number.** -/
theorem findChild_eq {child : Int} {L₁ L₂ : List (κ × Rid)} {e : κ × Rid}
    (he : n.entries = L₁ ++ e :: L₂) (hhit : e.2.pageNo = child)
    (hmiss : ∀ f ∈ L₁, f.2.pageNo ≠ child) : n.findChild child = some L₁.length := by
  have hlen : n.numKey = L₁.length + (L₂.length + 1) := by
    rw [← length_entries, he, List.length_append, List.length_cons]
  have hat : ∀ l, l < n.numKey → n.entries[l]? = some (n.keys l, n.rids l) :=
    fun l hl => getElem?_entries hl
  refine findFrom_spec (Nat.zero_le _) (by omega) ?_ ?_
  · have := hat L₁.length (by omega)
    rw [he, List.getElem?_append_right (by omega), Nat.sub_self, List.getElem?_cons_zero,
      Option.some.injEq] at this
    rw [← hhit, this]
  · intro l _ hl
    have := hat l (by omega)
    rw [he, List.getElem?_append_left (by omega)] at this
    exact hmiss _ (List.mem_of_getElem? this)

/-- The first entry is that of slot 0. -/
theorem entries_head (h : 0 < n.numKey) : n.entries.head? = some (n.keys 0, n.rids 0) := by
  rw [List.head?_eq_getElem?, getElem?_entries h]

/-- The least key other than `k`. -/
def firstBut [DecidableEq κ] (n : IxNode κ) (k : κ) : κ := if n.keys 0 = k then n.keys 1 else n.keys 0

theorem keys_remove [LinearOrder κ] {k : κ} (hinc : Increasing n.entries) (h2 : 2 ≤ n.numKey) :
    (n.remove k).keys 0 = n.firstBut k := by
  have hold : n.entries.head? = some (n.keys 0, n.rids 0) := entries_head (by omega)
  by_cases hk : ∃ v, (k, v) ∈ n.entries
  · obtain ⟨v, hk⟩ := hk
    obtain ⟨L₁, L₂, hent⟩ := List.append_of_mem hk
    obtain ⟨hrem, hsize⟩ := entries_remove hinc hent
    have hnew : (n.remove k).entries.head? = some ((n.remove k).keys 0, (n.remove k).rids 0) :=
      entries_head (by omega)
    have hone : n.entries[1]? = some (n.keys 1, n.rids 1) := getElem?_entries (by omega)
    rw [hent] at hold hone hinc
    rw [hrem] at hnew
    cases L₁ with
    | nil =>
        obtain rfl : k = n.keys 0 := congrArg Prod.fst (Option.some.inj hold)
        rw [firstBut, if_pos rfl]
        rw [List.nil_append, List.head?_eq_getElem?] at hnew
        rw [List.nil_append, List.getElem?_cons_succ, hnew] at hone
        exact congrArg Prod.fst (Option.some.inj hone)
    | cons f L₁ =>
        have hlt := (List.pairwise_cons.mp hinc).1 (k, v) (by simp)
        have hk0 : f.1 = n.keys 0 := congrArg Prod.fst (Option.some.inj hold)
        have hf0 : f.1 = (n.remove k).keys 0 := congrArg Prod.fst (Option.some.inj hnew)
        rw [firstBut, if_neg (by rw [← hk0]; exact ne_of_lt hlt), ← hf0, hk0]
  · have hmiss : ∀ e ∈ n.entries, e.1 ≠ k := by
      rintro ⟨k', v⟩ he rfl
      exact hk ⟨v, he⟩
    rw [remove_of_not_mem hmiss, firstBut, if_neg (hmiss _ (List.mem_of_mem_head? hold))]

/-- Only removing the first key changes the first key. -/
theorem firstBut_eq [LinearOrder κ] {k : κ} (hinc : Increasing n.entries) (h2 : 2 ≤ n.numKey) :
    n.firstBut k = n.keys 0 ↔ n.keys 0 ≠ k := by
  have hlt : n.keys 0 < n.keys 1 := keys_lt hinc (by omega) (by omega)
  unfold firstBut
  split
  · next heq => exact ⟨fun h => absurd h (ne_of_gt hlt), fun h => absurd heq h⟩
  · next hne => exact ⟨fun _ => hne, fun _ => rfl⟩

end IxNode

end Rucbase
