import Mathlib.Tactic.Common
import Mathlib.Logic.Function.Basic
import Mathlib.Data.List.Nodup
import Mathlib.Data.List.Perm.Basic

/-!
# `LRUReplacer`

`replacer/lru_replacer.cpp`. `LRUlist_` is a doubly linked list and `LRUhash_` maps a
frame to an *iterator*, that is, to the list node it sits in. A node is modelled by its
address, handed out by a counter, so that "erase the node the iterator points at" is an
operation on that node and not on whatever happens to hold the same frame id.

The agreement of the two containers is a field of the structure: no replacer in which
the hash points at a missing node, or misses a listed one, can be built. Everything
above uses the list of frames only (`frames`), through the membership lemmas at the end.
-/

namespace Rucbase

/-- A node of `LRUlist_`. -/
structure LruNode where
  addr : Nat
  frameId : Nat
deriving DecidableEq, Repr

/-- `LRUReplacer`. The front of `lruList` is the frame unpinned last. -/
structure LRUReplacer where
  lruList : List LruNode
  lruHash : Nat → Option Nat
  /-- Where the next list node will be allocated. -/
  nextNode : Nat
  maxSize : Nat
  /-- `LRUhash_` sends exactly the listed frames to their own nodes. -/
  hash_iff : ∀ f a, lruHash f = some a ↔ (⟨a, f⟩ : LruNode) ∈ lruList
  /-- Nodes are distinct objects. -/
  addr_nodup : (lruList.map LruNode.addr).Nodup
  addr_lt : ∀ n ∈ lruList, n.addr < nextNode
  size_le : lruList.length ≤ maxSize

namespace LRUReplacer

/-- `LRUReplacer(num_pages)`. -/
def new (numPages : Nat) : LRUReplacer where
  lruList := []
  lruHash := fun _ => none
  nextNode := 0
  maxSize := numPages
  hash_iff := by simp
  addr_nodup := by simp
  addr_lt := by simp
  size_le := Nat.zero_le _

/-- The frames listed, most recently unpinned first. -/
def frames (r : LRUReplacer) : List Nat := r.lruList.map LruNode.frameId

/-- Two listed nodes with one address are one node. -/
theorem node_ext {r : LRUReplacer} {m n : LruNode} (hm : m ∈ r.lruList) (hn : n ∈ r.lruList)
    (h : m.addr = n.addr) : m = n :=
  List.inj_on_of_nodup_map r.addr_nodup hm hn h

/-- Two listed nodes with one frame are one node. -/
theorem node_ext_frame {r : LRUReplacer} {m n : LruNode} (hm : m ∈ r.lruList)
    (hn : n ∈ r.lruList) (h : m.frameId = n.frameId) : m = n := by
  have h1 := (r.hash_iff m.frameId m.addr).mpr hm
  have h2 := (r.hash_iff n.frameId n.addr).mpr hn
  rw [h] at h1
  exact node_ext hm hn (Option.some.inj (h1.symm.trans h2))

/-- Erase one node from the list and its frame from the hash. -/
def eraseNode (r : LRUReplacer) (n : LruNode) (hn : n ∈ r.lruList) : LRUReplacer where
  lruList := r.lruList.filter (fun m => m.addr ≠ n.addr)
  lruHash := Function.update r.lruHash n.frameId none
  nextNode := r.nextNode
  maxSize := r.maxSize
  hash_iff := by
    intro f a
    rw [List.mem_filter]
    by_cases hf : f = n.frameId
    · subst hf
      rw [Function.update_self]
      simp only [reduceCtorEq, false_iff, decide_eq_true_eq, not_and, not_not]
      intro hm
      exact congrArg LruNode.addr (node_ext_frame hm hn rfl)
    · rw [Function.update_of_ne hf, r.hash_iff]
      simp only [decide_eq_true_eq, iff_self_and]
      intro hm ha
      exact hf (congrArg LruNode.frameId (node_ext hm hn ha))
  addr_nodup := r.addr_nodup.sublist (List.filter_sublist.map _)
  addr_lt := fun m hm => r.addr_lt m (List.mem_of_mem_filter hm)
  size_le := Nat.le_trans (List.length_filter_le _ _) r.size_le

/-- `Victim`: the frame unpinned longest ago leaves the list; `none` when it is empty. -/
def victim (r : LRUReplacer) : Option Nat × LRUReplacer :=
  match h : r.lruList.getLast? with
  | none => (none, r)
  | some n => (some n.frameId, r.eraseNode n (List.mem_of_getLast? h))

/-- `Pin`: the frame is no longer a candidate. -/
def pin (r : LRUReplacer) (frameId : Nat) : LRUReplacer :=
  match h : r.lruHash frameId with
  | none => r
  | some a => r.eraseNode ⟨a, frameId⟩ ((r.hash_iff frameId a).mp h)

/-- `Unpin`: a frame not yet listed goes to the front, unless the list is at capacity. -/
def unpin (r : LRUReplacer) (frameId : Nat) : LRUReplacer :=
  if hh : (r.lruHash frameId).isSome then r
  else if hs : r.maxSize ≤ r.lruList.length then r
  else
    { lruList := ⟨r.nextNode, frameId⟩ :: r.lruList
      lruHash := Function.update r.lruHash frameId (some r.nextNode)
      nextNode := r.nextNode + 1
      maxSize := r.maxSize
      hash_iff := by
        intro f a
        rw [List.mem_cons, LruNode.mk.injEq]
        by_cases hf : f = frameId
        · subst hf
          have hnot : ∀ b, (⟨b, f⟩ : LruNode) ∉ r.lruList := by
            intro b hb
            rw [(r.hash_iff f b).mpr hb] at hh
            exact hh rfl
          rw [Function.update_self]
          simp [hnot, eq_comm]
        · rw [Function.update_of_ne hf, r.hash_iff]
          simp [hf]
      addr_nodup := by
        rw [List.map_cons, List.nodup_cons]
        refine ⟨?_, r.addr_nodup⟩
        intro hm
        obtain ⟨n, hn, he⟩ := List.mem_map.mp hm
        exact absurd he (Nat.ne_of_lt (r.addr_lt n hn))
      addr_lt := by
        intro n hn
        rcases List.mem_cons.mp hn with rfl | hn
        · exact Nat.lt_succ_self _
        · exact Nat.lt_succ_of_lt (r.addr_lt n hn)
      size_le := by
        rw [List.length_cons]
        omega }

/-- `Size`. -/
def size (r : LRUReplacer) : Nat := r.lruList.length

/-! ## What the operations do to the listed frames -/

theorem frames_nodup (r : LRUReplacer) : r.frames.Nodup :=
  (List.Nodup.of_map _ r.addr_nodup).map_on (fun _ hm _ hn h => node_ext_frame hm hn h)

theorem length_frames (r : LRUReplacer) : r.frames.length = r.size := List.length_map ..

theorem mem_frames {r : LRUReplacer} {f : Nat} : f ∈ r.frames ↔ ∃ a, r.lruHash f = some a := by
  constructor
  · intro h
    obtain ⟨n, hn, rfl⟩ := List.mem_map.mp h
    exact ⟨n.addr, (r.hash_iff _ _).mpr hn⟩
  · rintro ⟨a, ha⟩
    exact List.mem_map.mpr ⟨_, (r.hash_iff _ _).mp ha, rfl⟩

@[simp] theorem frames_new (n : Nat) : (new n).frames = [] := rfl

theorem mem_frames_eraseNode {r : LRUReplacer} {n : LruNode} {hn : n ∈ r.lruList} {f : Nat} :
    f ∈ (r.eraseNode n hn).frames ↔ f ≠ n.frameId ∧ f ∈ r.frames := by
  rw [mem_frames, mem_frames]
  by_cases hf : f = n.frameId
  · subst hf
    simp [eraseNode]
  · simp [eraseNode, hf]

@[simp] theorem mem_frames_pin {r : LRUReplacer} {f g : Nat} :
    g ∈ (r.pin f).frames ↔ g ≠ f ∧ g ∈ r.frames := by
  unfold pin
  split
  · rename_i h
    refine ⟨fun hg => ⟨?_, hg⟩, fun hg => hg.2⟩
    rintro rfl
    obtain ⟨a, ha⟩ := mem_frames.mp hg
    rw [h] at ha
    exact absurd ha (by simp)
  · exact mem_frames_eraseNode

@[simp] theorem maxSize_pin (r : LRUReplacer) (f : Nat) : (r.pin f).maxSize = r.maxSize := by
  unfold pin
  split <;> rfl

/-- While there is room, an unlisted frame is listed by `Unpin`. -/
theorem mem_frames_unpin {r : LRUReplacer} {f g : Nat} (hroom : r.size < r.maxSize) :
    g ∈ (r.unpin f).frames ↔ g = f ∨ g ∈ r.frames := by
  unfold unpin
  split
  · rename_i hh
    obtain ⟨a, ha⟩ := Option.isSome_iff_exists.mp hh
    refine ⟨Or.inr, ?_⟩
    rintro (rfl | hg)
    · exact mem_frames.mpr ⟨a, ha⟩
    · exact hg
  · split
    · rename_i hs
      exact absurd hroom (by unfold size; omega)
    · simp [frames]

@[simp] theorem maxSize_unpin (r : LRUReplacer) (f : Nat) : (r.unpin f).maxSize = r.maxSize := by
  unfold unpin
  split
  · rfl
  · split <;> rfl

/-- `Victim` fails on the empty list only, and then changes nothing. -/
theorem victim_none {r r' : LRUReplacer} (h : r.victim = (none, r')) : r.frames = [] ∧ r' = r := by
  unfold victim at h
  split at h
  · rename_i hl
    refine ⟨?_, (congrArg Prod.snd h).symm⟩
    rw [frames, List.getLast?_eq_none_iff.mp hl]
    rfl
  · exact absurd (congrArg Prod.fst h) (by simp)

/-- A victim was listed, and is the only frame to leave. -/
theorem victim_some {r r' : LRUReplacer} {f : Nat} (h : r.victim = (some f, r')) :
    f ∈ r.frames ∧ (∀ g, g ∈ r'.frames ↔ g ≠ f ∧ g ∈ r.frames) ∧ r'.maxSize = r.maxSize := by
  unfold victim at h
  split at h
  · exact absurd (congrArg Prod.fst h) (by simp)
  · rename_i n hl
    have hf : n.frameId = f := Option.some.inj (congrArg Prod.fst h)
    have hr : r' = r.eraseNode n (List.mem_of_getLast? hl) := (congrArg Prod.snd h).symm
    subst hf hr
    exact ⟨List.mem_map.mpr ⟨n, List.mem_of_getLast? hl, rfl⟩,
      fun g => mem_frames_eraseNode, rfl⟩

end LRUReplacer

end Rucbase
