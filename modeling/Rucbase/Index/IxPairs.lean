import Rucbase.Index.IxTree

/-!
# Two neighbours under one parent

What borrowing and merging have in common. `a` and `b` stand next to each other among the
children of `y`. Either the entries of the two are dealt out anew and the key of `b` in `y`
changes, or `a` takes them all and `b` leaves the tree. In both cases some children of the two
get another parent.
-/

namespace Rucbase

open Lib

namespace IxCore

variable {κ : Type}

variable {c c' : IxCore κ} {h j : Nat} {lay : Nat → List (κ × Int)} {y a b p : Int}
  {P Q K₁ K₂ : List (κ × Int)} {ky ka kb kb' : κ} {va vb va' vb' : NodeView κ}
  {moved : List Int}

section

variable (ht : Tree c h lay) (hj : j < h) (hy : lay (j + 1) = P ++ (ky, y) :: Q)
  (hK : c.kids y = K₁ ++ [(ka, a), (kb, b)] ++ K₂)

include ht hj hy hK

/-- Where the two and their parent are. -/
theorem Tree.pair_site : y ∈ names (lay (j + 1)) ∧ a ∈ names (lay j) ∧ b ∈ names (lay j)
    ∧ a ≠ b ∧ a ≠ y ∧ b ≠ y := by
  have hymem : y ∈ names (lay (j + 1)) := by
    rw [hy]
    simp
  have ha : a ∈ names (lay j) := ht.layered.kid_mem hj hymem (by rw [hK]; simp)
  have hb : b ∈ names (lay j) := ht.layered.kid_mem hj hymem (by rw [hK]; simp)
  have hnd := ht.layered.kids_nodup hj hymem
  refine ⟨hymem, ha, hb, ?_, ?_, ?_⟩
  · rintro rfl
    rw [hK] at hnd
    simp [List.nodup_append] at hnd
  · exact ht.layered.ne_of_lt (Nat.lt_succ_self j) hj ha hymem
  · exact ht.layered.ne_of_lt (Nat.lt_succ_self j) hj hb hymem

/-- A child of one of the two hangs there, and is itself none of the three. -/
theorem Tree.pair_kid {u w : Int} (hw : w = a ∨ w = b) (hu : u ∈ names (c.kids w)) :
    c.par u = w ∧ u ≠ a ∧ u ≠ b ∧ u ≠ y ∧ ∃ i, j = i + 1 ∧ u ∈ names (lay i) := by
  obtain ⟨hymem, ha, hb, _, _, _⟩ := ht.pair_site hj hy hK
  have hwj : w ∈ names (lay j) := by
    rcases hw with rfl | rfl
    · exact ha
    · exact hb
  obtain ⟨i, hi, rfl, hmem⟩ := ht.kids_mem (by omega) hwj hu
  have hne : ∀ l v, i < l → l ≤ h → v ∈ names (lay l) → u ≠ v :=
    fun l v hil hl hv => ht.layered.ne_of_lt hil hl hmem hv
  refine ⟨ht.layered.parent i hi w hwj u hu, hne (i + 1) a (by omega) (by omega) ha,
    hne (i + 1) b (by omega) (by omega) hb, hne (i + 1 + 1) y (by omega) (by omega) hymem,
    i, rfl, hmem⟩

/-- **The entries of the two dealt out anew.** -/
theorem Tree.reshapes_shift (hva : c.view a = some va) (hvb : c.view b = some vb)
    (hroot : c'.hdr.rootPage = c.hdr.rootPage) (hnext : c'.nextPageNo = c.nextPageNo)
    (hva' : c'.view a = some va') (hvb' : c'.view b = some vb')
    (hvy' : ∃ v, c'.view y = some v ∧ v.isLeaf = false
      ∧ v.kids = K₁ ++ [(ka, a), (kb', b)] ++ K₂ ∧ v.parent = c.par y)
    (hla : va'.isLeaf = va.isLeaf) (hpa : va'.parent = va.parent)
    (hlb : vb'.isLeaf = vb.isLeaf) (hpb : vb'.parent = vb.parent)
    (hother : ∀ w, w ≠ a → w ≠ b → w ≠ y →
      c'.view w = if w ∈ moved then (c.view w).map (·.under p) else c.view w)
    (hsame : va'.kids ++ vb'.kids = va.kids ++ vb.kids)
    (hmoved : ∀ u ∈ moved, u ∈ names va.kids ∨ u ∈ names vb.kids)
    (hina : ∀ u ∈ names va'.kids, if u ∈ moved then p = a else u ∈ names va.kids)
    (hinb : ∀ u ∈ names vb'.kids, if u ∈ moved then p = b else u ∈ names vb.kids)
    (hheada : va.isLeaf = false → va'.kids.head? = va.kids.head?)
    (hheadb : vb.isLeaf = false → vb'.kids.head?.map Prod.fst = some kb') :
    Reshapes c c' h lay j y K₁ K₂ [(ka, a), (kb, b)] [(ka, a), (kb', b)] moved p := by
  obtain ⟨hymem, ha, hb, hab, hay, hby⟩ := ht.pair_site hj hy hK
  have hka : c.kids a = va.kids := kids_of_view hva
  have hkb : c.kids b = vb.kids := kids_of_view hvb
  have hka' : c'.kids a = va'.kids := kids_of_view hva'
  have hkb' : c'.kids b = vb'.kids := kids_of_view hvb'
  have hleaf : ∀ w v, w ∈ names (lay j) → c.view w = some v → v.isLeaf = decide (j = 0) := by
    intro w v hw hv
    obtain ⟨v', hv', hl⟩ := ht.kind j (by omega) w hw
    rw [hv, Option.some.injEq] at hv'
    rw [hv', hl]
  have hpar : ∀ w v, w ∈ names (c.kids y) → c.view w = some v → v.parent = y := by
    intro w v hw hv
    rw [← ht.layered.parent j hj y hymem w hw, par_of_view hv]
  constructor
  case root => exact hroot
  case next => exact le_of_eq hnext.symm
  case parent => exact hvy'
  case nodes =>
    intro w hw
    have hwab : w = a ∨ w = b := by simpa using hw
    rw [hnext]
    rcases hwab with rfl | rfl
    · exact ⟨⟨va', hva', hla.trans (hleaf w va ha hva),
        hpa.trans (hpar w va (by rw [hK]; simp) hva)⟩, ht.range j (by omega) w ha⟩
    · exact ⟨⟨vb', hvb', hlb.trans (hleaf w vb hb hvb),
        hpb.trans (hpar w vb (by rw [hK]; simp) hvb)⟩, ht.range j (by omega) w hb⟩
  case other =>
    intro i hi w _ hwy hwW
    exact hother w (fun heq => hwW (by simp [heq])) (fun heq => hwW (by simp [heq])) hwy
  case same => rw [below_pair, below_pair, hka, hkb, hka', hkb', hsame]
  case nodup => simpa using hab
  case fresh =>
    intro w hw
    exact .inl (by simpa using hw)
  case moved_below =>
    intro u hu
    rw [below_pair, hka, hkb, names, List.map_append]
    exact List.mem_append.mpr (hmoved u hu)
  case adopted =>
    intro w hw u hu
    have hwab : w = a ∨ w = b := by simpa using hw
    rcases hwab with rfl | rfl
    · rw [hka'] at hu
      -- a child of `a` came over with the move or was there before
      have := hina u hu
      split at this
      · next hm => rwa [if_pos hm]
      · next hm =>
          rw [if_neg hm]
          rw [← hka] at this
          exact (ht.pair_kid hj hy hK (.inl rfl) this).1
    · rw [hkb'] at hu
      have := hinb u hu
      split at this
      · next hm => rwa [if_pos hm]
      · next hm =>
          rw [if_neg hm]
          rw [← hkb] at this
          exact (ht.pair_kid hj hy hK (.inr rfl) this).1
  case head => rfl
  case labels =>
    intro h1 e he
    have hinner : ∀ w v, w ∈ names (lay j) → c.view w = some v → v.isLeaf = false := by
      intro w v hw hv
      rw [hleaf w v hw hv]
      simp
      omega
    rcases List.mem_cons.mp he with rfl | he
    · have hlabel := ht.labels j h1 hj (ka, a) (by
        rw [ht.layered.layer_eq hj hy, hK]
        simp)
      rw [hka', hheada (hinner a va ha hva), ← hka, hlabel]
    · rw [List.mem_singleton.mp he, hkb', hheadb (hinner b vb hb hvb)]

/-- The children of a node of the pair are listed once. -/
theorem Tree.pair_nodup {w : Int} {v : NodeView κ} (hw : w = a ∨ w = b) (hv : c.view w = some v) :
    (names v.kids).Nodup := by
  obtain ⟨_, ha, hb, _⟩ := ht.pair_site hj hy hK
  have hwj : w ∈ names (lay j) := by
    rcases hw with rfl | rfl
    · exact ha
    · exact hb
  rw [← kids_of_view hv]
  rcases Nat.eq_zero_or_pos j with h0 | hpos
  · rw [ht.layered.leaf w (h0 ▸ hwj)]
    exact List.nodup_nil
  · obtain ⟨i, rfl⟩ : ∃ i, j = i + 1 := ⟨j - 1, by omega⟩
    exact ht.layered.kids_nodup (by omega) hwj

/-- **The first entry of `b` goes to the end of `a`.** -/
theorem Tree.reshapes_left {e : κ × Rid} (hva : c.view a = some va) (hvb : c.view b = some vb)
    (hroot : c'.hdr.rootPage = c.hdr.rootPage) (hnext : c'.nextPageNo = c.nextPageNo)
    (hva' : c'.view a = some { va with entries := va.entries ++ [e] })
    (hvb' : c'.view b = some vb') (hvbe : vb = { vb' with entries := e :: vb'.entries })
    (hvy' : ∃ v, c'.view y = some v ∧ v.isLeaf = false
      ∧ v.kids = K₁ ++ [(ka, a), (kb', b)] ++ K₂ ∧ v.parent = c.par y)
    (hkind : va.isLeaf = vb.isLeaf)
    (hother : ∀ w, w ≠ a → w ≠ b → w ≠ y → c'.view w
      = if w ∈ names (NodeView.kidsOf va.isLeaf [e]) then (c.view w).map (·.under a) else c.view w)
    (hne : va.entries ≠ []) (hfirst : vb'.entries.head?.map Prod.fst = some kb') :
    Reshapes c c' h lay j y K₁ K₂ [(ka, a), (kb, b)] [(ka, a), (kb', b)]
      (names (NodeView.kidsOf va.isLeaf [e])) a := by
  have hkvb : vb.kids = NodeView.kidsOf va.isLeaf [e] ++ vb'.kids := by
    rw [hkind, hvbe]
    exact NodeView.kidsOf_cons
  have hkva : NodeView.kids { va with entries := va.entries ++ [e] }
      = va.kids ++ NodeView.kidsOf va.isLeaf [e] := NodeView.kidsOf_append
  refine ht.reshapes_shift hj hy hK hva hvb hroot hnext hva' hvb' hvy' rfl rfl
    (by rw [hvbe]) (by rw [hvbe]) hother ?_ ?_ ?_ ?_ ?_ ?_
  · rw [hkva, hkvb, List.append_assoc]
  · intro u hu
    exact .inr (by rw [hkvb, mem_names_append]; exact .inl hu)
  · intro u hu
    rw [hkva, mem_names_append] at hu
    by_cases hm : u ∈ names (NodeView.kidsOf va.isLeaf [e])
    · rw [if_pos hm]
    · rw [if_neg hm]
      exact hu.resolve_right hm
  · intro u hu
    -- no child of `b` is listed twice
    have hnd := ht.pair_nodup hj hy hK (.inr rfl) hvb
    rw [hkvb, names, List.map_append, List.nodup_append] at hnd
    rw [if_neg (fun hm => hnd.2.2 u hm u hu rfl), hkvb, mem_names_append]
    exact .inr hu
  · intro hl
    rw [hkva, List.head?_append_of_ne_nil]
    rw [NodeView.kids_of_inner hl]
    simpa using hne
  · intro hl
    have hl' : vb'.isLeaf = false := by
      rw [hvbe] at hl
      exact hl
    rw [NodeView.kids_of_inner hl', List.head?_map, Option.map_map]
    exact hfirst

/-- **The last entry of `a` goes to the front of `b`.** -/
theorem Tree.reshapes_right {e : κ × Rid} (hva : c.view a = some va) (hvb : c.view b = some vb)
    (hroot : c'.hdr.rootPage = c.hdr.rootPage) (hnext : c'.nextPageNo = c.nextPageNo)
    (hva' : c'.view a = some va') (hvae : va = { va' with entries := va'.entries ++ [e] })
    (hvb' : c'.view b = some { vb with entries := e :: vb.entries })
    (hvy' : ∃ v, c'.view y = some v ∧ v.isLeaf = false
      ∧ v.kids = K₁ ++ [(ka, a), (e.1, b)] ++ K₂ ∧ v.parent = c.par y)
    (hkind : va.isLeaf = vb.isLeaf)
    (hother : ∀ w, w ≠ a → w ≠ b → w ≠ y → c'.view w
      = if w ∈ names (NodeView.kidsOf vb.isLeaf [e]) then (c.view w).map (·.under b) else c.view w)
    (hne : va'.entries ≠ []) :
    Reshapes c c' h lay j y K₁ K₂ [(ka, a), (kb, b)] [(ka, a), (e.1, b)]
      (names (NodeView.kidsOf vb.isLeaf [e])) b := by
  have hkva : va.kids = va'.kids ++ NodeView.kidsOf vb.isLeaf [e] := by
    rw [← hkind, hvae]
    exact NodeView.kidsOf_append
  have hkvb : NodeView.kids { vb with entries := e :: vb.entries }
      = NodeView.kidsOf vb.isLeaf [e] ++ vb.kids := NodeView.kidsOf_cons
  refine ht.reshapes_shift hj hy hK hva hvb hroot hnext hva' hvb' hvy'
    (by rw [hvae]) (by rw [hvae]) rfl rfl hother ?_ ?_ ?_ ?_ ?_ ?_
  · rw [hkva, hkvb, List.append_assoc]
  · intro u hu
    exact .inl (by rw [hkva, mem_names_append]; exact .inr hu)
  · intro u hu
    have hnd := ht.pair_nodup hj hy hK (.inl rfl) hva
    rw [hkva, names, List.map_append, List.nodup_append] at hnd
    rw [if_neg (fun hm => hnd.2.2 u hu u hm rfl), hkva, mem_names_append]
    exact .inl hu
  · intro u hu
    rw [hkvb, mem_names_append] at hu
    by_cases hm : u ∈ names (NodeView.kidsOf vb.isLeaf [e])
    · rw [if_pos hm]
    · rw [if_neg hm]
      exact hu.resolve_left hm
  · intro hl
    rw [hkva, List.head?_append_of_ne_nil]
    rw [NodeView.kids_of_inner (by rw [hvae] at hl; exact hl)]
    simpa using hne
  · intro hl
    rw [NodeView.kids_of_inner (v := { vb with entries := e :: vb.entries }) hl]
    rfl

/-- **`a` takes the entries of both.** -/
theorem Tree.reshapes_merge (va' : NodeView κ) (hva : c.view a = some va) (hvb : c.view b = some vb)
    (hroot : c'.hdr.rootPage = c.hdr.rootPage) (hnext : c'.nextPageNo = c.nextPageNo)
    (hva' : c'.view a = some va')
    (hvy' : ∃ v, c'.view y = some v ∧ v.isLeaf = false ∧ v.kids = K₁ ++ [(ka, a)] ++ K₂
      ∧ v.parent = c.par y)
    (hla : va'.isLeaf = va.isLeaf) (hpa : va'.parent = va.parent)
    (hother : ∀ w, w ≠ a → w ≠ y →
      c'.view w = if w ∈ names vb.kids then (c.view w).map (·.under a) else c.view w)
    (hsame : va'.kids = va.kids ++ vb.kids)
    (hne : va.isLeaf = false → va.kids ≠ []) :
    Reshapes c c' h lay j y K₁ K₂ [(ka, a), (kb, b)] [(ka, a)] (names vb.kids) a := by
  obtain ⟨hymem, ha, hb, hab, hay, hby⟩ := ht.pair_site hj hy hK
  have hka : c.kids a = va.kids := kids_of_view hva
  have hkb : c.kids b = vb.kids := kids_of_view hvb
  have hka' : c'.kids a = va'.kids := kids_of_view hva'
  obtain ⟨va₀, hva₀, hleaf⟩ := ht.kind j (by omega) a ha
  obtain rfl : va = va₀ := Option.some.inj (hva.symm.trans hva₀)
  have hpar : va.parent = y := by
    rw [← ht.layered.parent j hj y hymem a (by rw [hK]; simp), par_of_view hva]
  constructor
  case root => exact hroot
  case next => exact le_of_eq hnext.symm
  case parent => exact hvy'
  case nodes =>
    intro w hw
    obtain rfl : w = a := by simpa using hw
    rw [hnext]
    exact ⟨⟨va', hva', hla.trans hleaf, hpa.trans hpar⟩, ht.range j (by omega) w ha⟩
  case other =>
    intro i hi w _ hwy hwW
    exact hother w (fun heq => hwW (by simp [heq])) hwy
  case same => rw [below_pair, below_singleton, hka, hkb, hka', hsame]
  case nodup => simp
  case fresh =>
    intro w hw
    exact .inl (by simp at hw; simp [hw])
  case moved_below =>
    intro u hu
    rw [below_pair, hka, hkb, names, List.map_append]
    exact List.mem_append_right _ hu
  case adopted =>
    intro w hw u hu
    obtain rfl : w = a := by simpa using hw
    by_cases hm : u ∈ names vb.kids
    · rw [if_pos hm]
    · rw [if_neg hm]
      rw [hka', hsame, names, List.map_append] at hu
      have hu' := (List.mem_append.mp hu).resolve_right hm
      rw [← hka] at hu'
      exact (ht.pair_kid hj hy hK (.inl rfl) hu').1
  case head => rfl
  case labels =>
    intro h1 e he
    rw [List.mem_singleton.mp he]
    have hlabel := ht.labels j h1 hj (ka, a) (by
      rw [ht.layered.layer_eq hj hy, hK]
      simp)
    have hinner : va.isLeaf = false := by
      rw [hleaf]
      simp
      omega
    rw [hka', hsame, List.head?_append_of_ne_nil _ (hne hinner), ← hka, hlabel]

end

end IxCore

end Rucbase
