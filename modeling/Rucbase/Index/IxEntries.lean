import Rucbase.Index.IxRouting

/-!
# What `insert_entry` reports

An entry is in the index if a leaf of the tree has it. `insert_entry` answers `true` whatever
`Insert` did, so its answer is right as long as the key is not stored with another rid.
-/

namespace Rucbase

open Lib

namespace IxCore

variable {κ : Type}

/-- A leaf of the tree has the entry `e`. -/
def Holds (c : IxCore κ) (e : κ × Rid) : Prop :=
  ∃ x n, InTree c x ∧ c.pages x = some n ∧ n.isLeaf = true ∧ e ∈ n.entries

variable {c : IxCore κ} {h j : Nat} {lay : Nat → List (κ × Int)} {x : Int} {n : IxNode κ}
  {e : κ × Rid} {k : κ} {v : Rid}

/-- The nodes of the layers are nodes of the tree. -/
theorem Tree.inTree (ht : Tree c h lay) (hj : j ≤ h) (hx : x ∈ names (lay j)) : InTree c x := by
  -- downwards from the root
  obtain ⟨d, hd⟩ : ∃ d, j + d = h := ⟨h - j, by omega⟩
  induction d generalizing j x with
  | zero =>
      obtain rfl : j = h := by omega
      rw [ht.layered.eq_root hx]
      refine .root (fun hno => ?_)
      have := (ht.range j (Nat.le_refl _) _ ht.layered.root_mem).1
      rw [hno] at this
      exact absurd this (by decide)
  | succ d ih =>
      rw [ht.layered.down j (by omega), mem_names_below] at hx
      obtain ⟨y, hy, hxy⟩ := hx
      obtain ⟨m, hm, hml⟩ := ht.view_some (j := j + 1) (by omega) hy
      rw [ht.kids_eq (by omega) hy hm, names, List.map_map] at hxy
      obtain ⟨e, he, rfl⟩ := List.mem_map.mp hxy
      obtain ⟨i, hi, rfl⟩ := IxNode.mem_entries.mp he
      exact .child (ih (by omega) hy (by omega)) hm (by rw [hml]; simp) hi

/-- What the index has is what the leaves hold. -/
theorem Tree.holds_iff (ht : Tree c h lay) : Holds c e ↔ e ∈ c.stored lay := by
  unfold stored
  rw [List.mem_flatMap]
  constructor
  · rintro ⟨x, n, hx, hn, hleaf, he⟩
    obtain ⟨j, hj, hmem⟩ := ht.mem_of_inTree hx
    obtain ⟨m, hm, hml⟩ := ht.view_some hj hmem
    obtain rfl : n = m := Option.some.inj (hn.symm.trans hm)
    obtain rfl : j = 0 := of_decide_eq_true (hml.symm.trans hleaf)
    obtain ⟨f, hf, rfl⟩ := List.mem_map.mp hmem
    refine ⟨f, hf, ?_⟩
    rw [cont_of_leaf (view_of_pages hn) hleaf]
    exact he
  · rintro ⟨f, hf, he⟩
    have hmem : f.2 ∈ names (lay 0) := List.mem_map_of_mem hf
    obtain ⟨n, hn, hleaf⟩ := ht.view_some (Nat.zero_le _) hmem
    rw [cont_of_leaf (view_of_pages hn) hleaf] at he
    exact ⟨f.2, n, ht.inTree (Nat.zero_le _) hmem, hn, hleaf, he⟩

theorem Tree.mem_stored (ht : Tree c h lay) (hx : x ∈ names (lay 0)) (hn : c.pages x = some n)
    (he : e ∈ n.entries) : e ∈ c.stored lay :=
  ht.holds_iff.mp ⟨x, n, ht.inTree (Nat.zero_le _) hx, hn, ht.isLeaf hx hn, he⟩

variable [LinearOrder κ]

/-- A new entry of a leaf is stored, and nothing else is. -/
theorem Tree.mem_insert (ht : Tree c h lay) (hx : x ∈ names (lay 0)) (hn : c.pages x = some n)
    (hinc : Increasing n.entries) (hk : ∀ e ∈ n.entries, e.1 ≠ k) :
    (k, v) ∈ entriesOf ((c.setNode x (n.insert k v)).blocks lay) := by
  obtain ⟨A, kx, B, hcut⟩ := split_of_mem_names hx
  obtain ⟨L₁, L₂, _, hins, _⟩ := IxNode.entries_insert (v := v) hinc hk
  rw [ht.blocks_setLeaf hcut (IxNode.insert_fields.1.trans (ht.isLeaf hx hn)), hins, mem_entriesOf]
  exact ⟨(kx, L₁ ++ (k, v) :: L₂), by simp, by simp⟩

end IxCore

namespace IxIndexHandle

open IxCore

variable {κ : Type} [LinearOrder κ] [Inhabited κ] {c : IxCore κ} {h : Nat}
  {lay : Nat → List (κ × Int)} {x : Int} {n : IxNode κ} {k : κ} {v : Rid} {fuel : Nat}

/-- `insert_entry(k, v)` answers `true` if and only if the entry is in the index afterwards, and
changes nothing if the key has another rid. -/
def Honest (c : IxCore κ) (k : κ) (v : Rid) : Prop :=
  ∃ rounds, ∀ fuel, rounds ≤ fuel → Yields (insertEntry fuel k v) c (fun a c' =>
    (a = true ↔ c'.Holds (k, v))
      ∧ ((∃ v', v' ≠ v ∧ c.Holds (k, v')) → a = false ∧ c'.pages = c.pages))

/-- The key of an entry the leaf has already is not inserted again. -/
theorem yields_insertIntoLeaf_again (hs : Sound c h lay) (hx : x ∈ names (lay 0))
    (hn : c.pages x = some n) (hinc : Increasing n.entries) {v' : Rid}
    (hk : (k, v') ∈ n.entries) :
    Yields (insertIntoLeaf fuel x k v) c (fun a c' => a = true ∧ c' = c) := by
  have hsame : c.setNode x n = c := by
    unfold setNode
    rw [← hn, Function.update_eq_self]
  have hsize := (hs.sizes.2 0 (Nat.zero_le _) x hx (by simp)).1
  rw [size_eq_numKey hn] at hsize
  unfold insertIntoLeaf
  refine (yields_modifyNode hn).then_do ?_
  rw [IxNode.insert_of_mem hinc hk, hsame]
  refine Yields.get_bind (fun s hsat => ?_)
  refine (yields_onlyIf_neg ?_ rfl).then_do (yields_unpinPage.then_do (Yields.pure ⟨rfl, rfl⟩))
  rw [hsat.node, node_of_some hn, hsat.fileHdr]
  unfold IxFileHdr.maxSize
  omega

/-- A search that ends in the leaf `x`. -/
def FindsLeaf (c : IxCore κ) (k : κ) (x : Int) : Prop :=
  ∃ rounds, ∀ fuel, rounds ≤ fuel → Yields (findLeafPage fuel k) c (fun a c' => a = x ∧ c' = c)

/-- `insert_entry` is the search and the steps behind it. -/
theorem FindsLeaf.insertEntry {Q : Bool → IxCore κ → Prop} (hf : FindsLeaf c k x)
    (hi : ∃ rounds, ∀ fuel, rounds ≤ fuel → Yields (insertIntoLeaf fuel x k v) c Q) :
    ∃ rounds, ∀ fuel, rounds ≤ fuel → Yields (insertEntry fuel k v) c Q := by
  obtain ⟨r₁, hf⟩ := hf
  obtain ⟨r₂, hi⟩ := hi
  refine ⟨r₁ + r₂, fun fuel hfuel => ?_⟩
  exact (hf fuel (by omega)).then_at (hi fuel (by omega))

theorem findsLeaf_root (hn : c.pages c.hdr.rootPage = some n) (hl : n.isLeaf = true) :
    FindsLeaf c k c.hdr.rootPage := by
  refine ⟨1, fun fuel hfuel => ?_⟩
  obtain ⟨fuel, rfl⟩ : ∃ d, fuel = d + 1 := ⟨fuel - 1, by omega⟩
  refine Yields.get_bind (fun s hsat => ?_)
  rw [hsat.fileHdr]
  exact (yields_fetchNode hn).then_at (yields_descend_leaf hn hl ⟨rfl, rfl⟩)

section

variable (hs : Sound c h lay) (hx : x ∈ names (lay 0)) (hn : c.pages x = some n)
  (hinc : Increasing n.entries) (hfind : FindsLeaf c k x)

include hs hx hn hinc hfind

theorem yields_insertEntry_again {v' : Rid} (hk : (k, v') ∈ n.entries) :
    ∃ rounds, ∀ fuel, rounds ≤ fuel →
      Yields (insertEntry fuel k v) c (fun a c' => a = true ∧ c' = c) :=
  hfind.insertEntry ⟨0, fun _ _ => yields_insertIntoLeaf_again hs hx hn hinc hk⟩

/-- A key that has another rid is answered `true` as well. -/
theorem not_honest {v' : Rid} (hk : (k, v') ∈ n.entries) (hne : v' ≠ v) : ¬ Honest c k v := by
  rintro ⟨r₁, hhonest⟩
  obtain ⟨r₂, hrun⟩ := yields_insertEntry_again (v := v) hs hx hn hinc hfind hk
  obtain ⟨a, c', ⟨_, hfalse⟩, htrue, _⟩ := (hhonest (r₁ + r₂) (by omega)).both
    (hrun (r₁ + r₂) (by omega))
  have hv' : c.Holds (k, v') := hs.tree.holds_iff.mpr (hs.tree.mem_stored hx hn hk)
  have := (hfalse ⟨v', hne, hv'⟩).1
  rw [htrue] at this
  exact absurd this (by decide)

/-- **When the answer of `insert_entry` is right**: the key must not be stored with another
rid. -/
theorem honest_iff (hcovers : ∀ e ∈ c.stored lay, e.1 = k → e ∈ n.entries) :
    Honest c k v ↔ ∀ v', c.Holds (k, v') → v' = v := by
  constructor
  · intro hhonest v' hv'
    by_contra hne
    have hk := hcovers _ (hs.tree.holds_iff.mp hv') rfl
    exact not_honest hs hx hn hinc hfind hk hne hhonest
  · intro honly
    have hother : ¬ ∃ v', v' ≠ v ∧ c.Holds (k, v') := fun ⟨v', hne, hv'⟩ => hne (honly v' hv')
    by_cases hk : ∃ v', (k, v') ∈ n.entries
    · -- the entry is there already
      obtain ⟨v', hk⟩ := hk
      obtain ⟨rounds, hrun⟩ := yields_insertEntry_again (v := v) hs hx hn hinc hfind hk
      refine ⟨rounds, fun fuel hfuel => (hrun fuel hfuel).mono ?_⟩
      rintro a c' ⟨rfl, rfl⟩
      have hv' : c'.Holds (k, v') := hs.tree.holds_iff.mpr (hs.tree.mem_stored hx hn hk)
      obtain rfl := honly v' hv'
      exact ⟨⟨fun _ => hv', fun _ => rfl⟩, fun h => absurd h hother⟩
    · have hnk : ∀ e ∈ n.entries, e.1 ≠ k := by
        rintro ⟨k', v'⟩ he rfl
        exact hk ⟨v', he⟩
      have hins := hfind.insertEntry (v := v)
        ⟨h + 1, fun fuel hfuel => yields_insertIntoLeaf (k := k) (v := v) hs hx hn (by omega)⟩
      obtain ⟨rounds, hrun⟩ := hins
      refine ⟨rounds, fun fuel hfuel => (hrun fuel hfuel).mono ?_⟩
      rintro a c' ⟨rfl, h', lay', hsound, hkeeps, _⟩
      refine ⟨⟨fun _ => ?_, fun _ => rfl⟩, fun h => absurd h hother⟩
      rw [hsound.tree.holds_iff, ← entriesOf_blocks, hkeeps.same]
      exact hs.tree.mem_insert hx hn hinc hnk

end

theorem honest_iff_sample : Honest (sample 2) 7 ⟨4, 5⟩ ↔ ∀ v', (sample 2).Holds (7, v') → v' = ⟨4, 5⟩ :=
  honest_iff (sample_single (by decide)).sound (by decide) rfl
    ((sample_wellFormed (by decide)).leaf_sorted (x := 2) (by decide) rfl)
    (findsLeaf_root rfl rfl) (by decide)

/-- The key 1 of the leaf `1 2`, inserted with another rid. -/
theorem sample_not_honest : Sound (sample 2) 0 (sample 2).rootOnly ∧ FindsLeaf (sample 2) 1 2
    ∧ ¬ Honest (sample 2) 1 ⟨4, 5⟩ := by
  have hfind : FindsLeaf (sample 2) 1 2 := findsLeaf_root rfl rfl
  refine ⟨(sample_single (by decide)).sound, hfind, ?_⟩
  exact not_honest (sample_single (by decide)).sound (by decide) rfl
    ((sample_wellFormed (by decide)).leaf_sorted (x := 2) (by decide) rfl) hfind
    (show ((1 : Nat), (⟨1, 0⟩ : Rid)) ∈ _ by decide) (by decide)

end IxIndexHandle

end Rucbase
