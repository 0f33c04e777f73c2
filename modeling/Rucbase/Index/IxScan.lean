import Rucbase.Index.IxRouting

/-!
# `IxScan`

`index/ix_scan.{h,cpp}`: a cursor that runs over the leaves. A position is a page and a slot; of
the several ways to write the gap between two leaves only one is what the cursor comes to, slot
0 of the later leaf, and behind the last entry it is the slot behind it in the last leaf.
`Cursor` numbers the positions the cursor comes to. A scan between two such positions returns
what is between them; a scan that starts or should end at another position does not.
-/

namespace Rucbase

open Lib

/-- `IxScan`: the current position and the end. -/
structure IxScan where
  iid : Iid
  stop : Iid

namespace IxScan

variable {κ : Type} [LinearOrder κ] [Inhabited κ]

/-- `is_end`. -/
def isEnd (scan : IxScan) : Bool := scan.iid = scan.stop

/-- `next`. -/
def next (scan : IxScan) : IxM κ IxScan := do
  if scan.isEnd then
    throw .assertionFailure
  else
    let node ← IxIndexHandle.fetchNode scan.iid.pageNo
    let s ← get
    let n := s.node node
    if n.isLeaf = false then
      throw .assertionFailure
    else if n.numKey ≤ scan.iid.slotNo then
      throw .assertionFailure
    else if scan.iid.pageNo ≠ s.fileHdr.lastLeaf ∧ scan.iid.slotNo + 1 = n.numKey then
      return { scan with iid := ⟨n.nextLeaf, 0⟩ }
    else
      return { scan with iid := ⟨scan.iid.pageNo, scan.iid.slotNo + 1⟩ }

/-- `rid`. -/
def rid (scan : IxScan) : IxM κ Rid := IxIndexHandle.getRid scan.iid

/-- The loop of a client: `while (!scan.is_end()) { rids.push_back(scan.rid()); scan.next(); }`. -/
def collect : Nat → IxScan → IxM κ (List Rid)
  | 0, _ => throw .outOfFuel
  | fuel + 1, scan => do
      if scan.isEnd then
        return []
      else
        let r ← scan.rid
        let scan ← scan.next
        let rest ← collect fuel scan
        return r :: rest

/-- The scan from `leaf_begin()` to `leaf_end()`. -/
def full (fuel : Nat) : IxM κ (List Rid) := do
  let lower ← IxIndexHandle.leafBegin
  let upper ← IxIndexHandle.leafEnd
  collect fuel ⟨lower, upper⟩

/-- The scan from `lower_bound(lo)` to `upper_bound(hi)`, with `find` for `FindLeafPage`. -/
def range (find : κ → IxM κ Int) (fuel : Nat) (lo hi : κ) : IxM κ (List Rid) := do
  let lower ← IxIndexHandle.lowerBoundVia find lo
  let upper ← IxIndexHandle.upperBoundVia find hi
  collect fuel ⟨lower, upper⟩

end IxScan

namespace IxCore

variable {κ : Type}

/-- The leaves of an index, linked in key order in a circle with the header page. None is
empty, unless it is the only one. -/
structure LeafList [LinearOrder κ] [Inhabited κ] (c : IxCore κ) (l : List Int) : Prop where
  ring : LeafRing c l
  first : l.head? = some c.hdr.firstLeaf
  last : l.getLast? = some c.hdr.lastLeaf
  leaf : ∀ x ∈ l, ∃ n, c.pages x = some n ∧ n.isLeaf = true
  filled : (∀ x ∈ l, c.cont x ≠ []) ∨ ∃ x, l = [x]
  sorted : Increasing (l.flatMap c.cont)

/-- The entries, each with its leaf. -/
def places (c : IxCore κ) (l : List Int) : List (κ × Int × Rid) :=
  l.flatMap fun x => (c.cont x).map fun e => (e.1, x, e.2)

/-- The position of the `i`-th entry, as the cursor has it. -/
inductive Cursor (c : IxCore κ) (l : List Int) : Nat → Iid → Prop where
  | entry {A B : List Int} {x : Int} {s : Nat} : l = A ++ x :: B → s < (c.cont x).length →
      Cursor c l ((A.flatMap c.cont).length + s) ⟨x, s⟩
  | stop : Cursor c l (l.flatMap c.cont).length ⟨c.hdr.lastLeaf, (c.cont c.hdr.lastLeaf).length⟩

variable {c : IxCore κ} {l A B : List Int} {x w : Int} {n : IxNode κ} {i j s : Nat} {p q : Iid}
  {k lo hi : κ}

theorem LeafList.cont_eq [LinearOrder κ] [Inhabited κ] (hl : LeafList c l) (hx : x ∈ l)
    (hn : c.pages x = some n) :
    c.cont x = n.entries := by
  obtain ⟨n', hn', hleaf⟩ := hl.leaf x hx
  obtain rfl : n = n' := Option.some.inj (hn.symm.trans hn')
  exact cont_of_leaf (view_of_pages hn) hleaf

theorem map_places (c : IxCore κ) (l : List Int) :
    (c.places l).map (fun e => (e.1, e.2.2)) = l.flatMap c.cont := by
  unfold places
  rw [List.map_flatMap]
  refine List.flatMap_congr fun x _ => ?_
  rw [List.map_map]
  exact List.map_id _

theorem places_sorted [LinearOrder κ] [Inhabited κ] (hl : LeafList c l) : Increasing (c.places l) := by
  have hsorted := hl.sorted
  unfold Increasing at hsorted ⊢
  rw [← map_places, List.pairwise_map] at hsorted
  exact hsorted

theorem mem_places {e : κ × Int × Rid} :
    e ∈ c.places l ↔ e.2.1 ∈ l ∧ (e.1, e.2.2) ∈ c.cont e.2.1 := by
  obtain ⟨k, x, r⟩ := e
  simp only [places, List.mem_flatMap, List.mem_map, Prod.mk.injEq]
  constructor
  · rintro ⟨y, hy, ⟨k', r'⟩, he, rfl, rfl, rfl⟩
    exact ⟨hy, he⟩
  · rintro ⟨hx, he⟩
    exact ⟨x, hx, _, he, rfl, rfl, rfl⟩

/-- No leaf is listed twice: its entries would be. -/
theorem LeafList.nodup [LinearOrder κ] [Inhabited κ] (hl : LeafList c l) : l.Nodup := by
  rcases hl.filled with hne | ⟨x, rfl⟩
  · have hpair := (List.pairwise_flatMap.mp hl.sorted).2
    refine hpair.imp_of_mem (fun {a b} ha _ hab => ?_)
    rintro rfl
    obtain ⟨e, he⟩ := List.exists_mem_of_ne_nil _ (hne a ha)
    exact absurd (hab e he e he) (lt_irrefl _)
  · exact List.nodup_singleton x

/-- A leaf is the last one if and only if nothing is behind it. -/
theorem LeafList.last_iff [LinearOrder κ] [Inhabited κ] (hl : LeafList c l) (hcut : l = A ++ x :: B) :
    x = c.hdr.lastLeaf ↔ B = [] := by
  have hlast := hl.last
  have hnd := hl.nodup
  rw [hcut, List.getLast?_append] at hlast
  constructor
  · rintro rfl
    cases B with
    | nil => rfl
    | cons b B =>
        rw [List.getLast?_cons_cons] at hlast
        cases hgl : (b :: B).getLast? with
        | none => simp at hgl
        | some y =>
            rw [hgl, Option.some_or, Option.some.injEq] at hlast
            rw [hcut, List.nodup_append, List.nodup_cons] at hnd
            rw [hlast] at hgl
            exact absurd (List.mem_of_mem_getLast? hgl) hnd.2.1.1
  · rintro rfl
    rw [List.getLast?_singleton, Option.some_or, Option.some.injEq] at hlast
    exact hlast

theorem LeafList.last_mem [LinearOrder κ] [Inhabited κ] (hl : LeafList c l) :
    c.hdr.lastLeaf ∈ l := List.mem_of_mem_getLast? hl.last

/-- Where a list without repetition is cut depends on the element only. -/
theorem cut_unique {A' B' : List Int} (hnd : l.Nodup) (h : l = A ++ x :: B) (h' : l = A' ++ x :: B') :
    A = A' ∧ B = B' := by
  have hx : x ∉ A := by
    rw [h, List.nodup_append] at hnd
    exact fun hmem => hnd.2.2 x hmem x (by simp) rfl
  have hx' : x ∉ A' := by
    rw [h', List.nodup_append] at hnd
    exact fun hmem => hnd.2.2 x hmem x (by simp) rfl
  have := List.append_eq_append_iff.mp (h.symm.trans h')
  rcases this with ⟨M, hA, hB⟩ | ⟨M, hA, hB⟩
  · cases M with
    | nil => exact ⟨by simpa using hA.symm, by simpa using hB⟩
    | cons m M =>
        rw [List.cons_append, List.cons.injEq] at hB
        exact absurd (by rw [hA, ← hB.1]; simp) hx'
  · cases M with
    | nil => exact ⟨by simpa using hA, by simpa using hB.symm⟩
    | cons m M =>
        rw [List.cons_append, List.cons.injEq] at hB
        exact absurd (by rw [hA, ← hB.1]; simp) hx

/-- A position is that of one entry. -/
theorem Cursor.unique [LinearOrder κ] [Inhabited κ] (hl : LeafList c l) (hi : Cursor c l i p)
    (hj : Cursor c l j p) : i = j := by
  cases hi with
  | entry hcut hs =>
      cases hj with
      | entry hcut' _ =>
          rw [(cut_unique hl.nodup hcut hcut').1]
      | stop => exact absurd hs (lt_irrefl _)
  | stop =>
      cases hj with
      | entry _ hs => exact absurd hs (lt_irrefl _)
      | stop => rfl

theorem Cursor.le (hi : Cursor c l i p) : i ≤ (l.flatMap c.cont).length := by
  cases hi with
  | @entry A B x s hcut hs =>
      rw [hcut, List.flatMap_append, List.flatMap_cons, List.length_append, List.length_append]
      omega
  | stop => exact Nat.le_refl _

/-- The position of an entry is before the end. -/
theorem entry_lt (hcut : l = A ++ x :: B) (hs : s < (c.cont x).length) :
    (A.flatMap c.cont).length + s < (l.flatMap c.cont).length := by
  rw [hcut, List.flatMap_append, List.flatMap_cons, List.length_append, List.length_append]
  omega

/-- An entry has one position. -/
theorem Cursor.position (hi : Cursor c l i p) (hj : Cursor c l j q) (hij : i = j) : p = q := by
  -- of two cuts, the earlier leaf holds the smaller numbers
  have hbefore : ∀ {A B A' B' M : List Int} {x x' : Int} {s s' : Nat}, s < (c.cont x).length →
      A' = A ++ M → x :: B = M ++ x' :: B' →
      (A.flatMap c.cont).length + s = (A'.flatMap c.cont).length + s' →
      (⟨x, s⟩ : Iid) = ⟨x', s'⟩ := by
    intro A B A' B' M x x' s s' hs hA hB heq
    cases M with
    | nil =>
        rw [List.append_nil] at hA
        rw [List.nil_append, List.cons.injEq] at hB
        rw [hA] at heq
        rw [hB.1]
        congr 1
        omega
    | cons m M =>
        rw [List.cons_append, List.cons.injEq] at hB
        rw [hA, List.flatMap_append, List.flatMap_cons, ← hB.1, List.length_append,
          List.length_append] at heq
        omega
  cases hi with
  | entry hcut hs =>
      cases hj with
      | entry hcut' hs' =>
          rcases List.append_eq_append_iff.mp (hcut.symm.trans hcut') with ⟨M, hA, hB⟩ | ⟨M, hA, hB⟩
          · exact hbefore hs hA hB hij
          · exact (hbefore hs' hA hB hij.symm).symm
      | stop =>
          have := entry_lt hcut hs
          omega
  | stop =>
      cases hj with
      | entry hcut hs =>
          have := entry_lt hcut hs
          omega
      | stop => rfl

variable [LinearOrder κ]

theorem count_around (hcut : l = A ++ x :: B) (hcont : c.cont x = n.entries)
    (hinc : Increasing n.entries) (hA : ∀ e ∈ A.flatMap c.cont, e.1 < k)
    (hB : ∀ e ∈ B.flatMap c.cont, k < e.1) :
    (l.flatMap c.cont).countP (fun e => e.1 < k) = (A.flatMap c.cont).length + n.lowerBound k
    ∧ (l.flatMap c.cont).countP (fun e => e.1 ≤ k) = (A.flatMap c.cont).length + n.upperBound k := by
  rw [hcut, List.flatMap_append, List.flatMap_cons, List.countP_append, List.countP_append,
    List.countP_append, List.countP_append, hcont, IxNode.countP_lowerBound hinc,
    IxNode.countP_upperBound hinc]
  have h1 : (A.flatMap c.cont).countP (fun e => e.1 < k) = (A.flatMap c.cont).length :=
    List.countP_eq_length.mpr (fun e he => decide_eq_true (hA e he))
  have h2 : (A.flatMap c.cont).countP (fun e => e.1 ≤ k) = (A.flatMap c.cont).length :=
    List.countP_eq_length.mpr (fun e he => decide_eq_true (le_of_lt (hA e he)))
  have h3 : (B.flatMap c.cont).countP (fun e => e.1 < k) = 0 :=
    List.countP_eq_zero.mpr (fun e he => by simpa using le_of_lt (hB e he))
  have h4 : (B.flatMap c.cont).countP (fun e => e.1 ≤ k) = 0 :=
    List.countP_eq_zero.mpr (fun e he => by simpa using hB e he)
  rw [h1, h2, h3, h4]
  exact ⟨rfl, rfl⟩

/-- The entries below the bottom are among those up to the top. -/
theorem count_lt_le {lo hi : κ} (hle : lo ≤ hi) : (l.flatMap c.cont).countP (fun e => e.1 < lo)
    ≤ (l.flatMap c.cont).countP (fun e => e.1 ≤ hi) := by
  refine List.countP_mono_left (fun e _ he => ?_)
  exact decide_eq_true ((le_of_lt (of_decide_eq_true he)).trans hle)

variable [Inhabited κ]

/-- Where a full scan starts. -/
theorem LeafList.begin (hl : LeafList c l) : Cursor c l 0 ⟨c.hdr.firstLeaf, 0⟩ := by
  have hfirst := hl.first
  cases l with
  | nil => exact absurd hfirst (by simp)
  | cons x B =>
      rw [List.head?_cons, Option.some.injEq] at hfirst
      rw [← hfirst]
      by_cases hne : c.cont x = []
      · -- the only leaf, and empty: the end is where it starts
        obtain ⟨y, hy⟩ := hl.filled.resolve_left (fun hall => hall x (by simp) hne)
        rw [List.cons.injEq] at hy
        have hlast := (hl.last_iff (A := []) rfl).mpr hy.2
        have := Cursor.stop (c := c) (l := x :: B)
        rw [← hlast, hy.2, List.flatMap_cons, hne] at this
        rw [hy.2]
        exact this
      · exact Cursor.entry (A := []) (s := 0) rfl (List.length_pos_iff.mpr hne)

/-- Where it ends. -/
theorem LeafList.stop (hl : LeafList c l) : ∃ n, c.pages c.hdr.lastLeaf = some n
    ∧ Cursor c l (l.flatMap c.cont).length ⟨c.hdr.lastLeaf, n.numKey⟩ := by
  obtain ⟨n, hn, _⟩ := hl.leaf _ hl.last_mem
  refine ⟨n, hn, ?_⟩
  have := Cursor.stop (c := c) (l := l)
  rwa [hl.cont_eq hl.last_mem hn, IxNode.length_entries] at this

/-- The leaves of a well-formed tree. -/
theorem WellFormed.leafList {h : Nat} {lay : Nat → List (κ × Int)} (hw : WellFormed c h lay) :
    LeafList c (names (lay 0)) := by
  have hstored : (names (lay 0)).flatMap c.cont = c.stored lay := by
    rw [names, List.flatMap_map]
    rfl
  refine ⟨hw.ring, hw.first, hw.last, fun x hx => ?_, ?_, by rw [hstored]; exact hw.sorted⟩
  · obtain ⟨n, hn, hl⟩ := hw.tree.view_some (Nat.zero_le _) hx
    exact ⟨n, hn, hl⟩
  · rcases Nat.eq_zero_or_pos h with rfl | hpos
    · exact .inr ⟨_, hw.tree.layered.top⟩
    · exact .inl (fun x hx => hw.tree.under_ne_nil hw.sizes hpos hx)

/-- The position of an entry: its leaf and its slot, and the position behind it. -/
theorem Cursor.step (hl : LeafList c l) (hi : Cursor c l i p)
    (hlt : i < (l.flatMap c.cont).length) : ∃ n, c.pages p.pageNo = some n ∧ n.isLeaf = true
      ∧ p.slotNo < n.numKey
      ∧ (c.places l)[i]? = some (n.keys p.slotNo, p.pageNo, n.rids p.slotNo)
      ∧ Cursor c l (i + 1) (if p.pageNo ≠ c.hdr.lastLeaf ∧ p.slotNo + 1 = n.numKey
        then ⟨n.nextLeaf, 0⟩ else ⟨p.pageNo, p.slotNo + 1⟩) := by
  cases hi with
  | stop => exact absurd hlt (lt_irrefl _)
  | @entry A B x s hcut hs =>
      have hx : x ∈ l := by
        rw [hcut]
        simp
      obtain ⟨n, hn, hleaf⟩ := hl.leaf x hx
      have hcont := hl.cont_eq hx hn
      have hsize : (c.cont x).length = n.numKey := by rw [hcont, IxNode.length_entries]
      rw [hsize] at hs
      refine ⟨n, hn, hleaf, hs, ?_, ?_⟩
      · have hlen : (c.places A).length = (A.flatMap c.cont).length := by
          rw [← map_places, List.length_map]
        dsimp only
        rw [hcut, places, List.flatMap_append, List.flatMap_cons, ← places,
          List.getElem?_append_right (by omega), hlen, Nat.add_sub_cancel_left,
          List.getElem?_append_left (by rw [List.length_map, hsize]; exact hs), List.getElem?_map,
          hcont, IxNode.getElem?_entries hs]
        rfl
      · dsimp only
        by_cases hmore : s + 1 < n.numKey
        · rw [if_neg (fun h => by omega)]
          exact .entry hcut (by rw [hsize]; exact hmore)
        · by_cases hlast : x = c.hdr.lastLeaf
          · -- the end of the last leaf
            rw [if_neg (fun h => h.1 hlast)]
            have hB := (hl.last_iff hcut).mp hlast
            have htotal : (A.flatMap c.cont).length + s + 1 = (l.flatMap c.cont).length := by
              rw [hcut, hB, List.flatMap_append, List.flatMap_cons, List.length_append,
                List.length_append, hsize]
              simp only [List.flatMap_nil, List.length_nil]
              omega
            have hpos : (⟨x, s + 1⟩ : Iid) = ⟨c.hdr.lastLeaf, (c.cont c.hdr.lastLeaf).length⟩ := by
              rw [← hlast, hsize]
              congr 1
              omega
            rw [htotal, hpos]
            exact .stop
          · -- the next leaf has an entry
            rw [if_pos ⟨hlast, by omega⟩]
            cases hB : B with
            | nil => exact absurd ((hl.last_iff hcut).mpr hB) hlast
            | cons b B' =>
                have hring := hl.ring.ring
                rw [hcut, hB] at hring
                have hnext : n.nextLeaf = b := by
                  have := hring.next
                  rw [List.cons_append, List.head?_cons, Option.some.injEq, nxt, node_of_some hn] at this
                  exact this.symm
                have hcut' : l = (A ++ [x]) ++ b :: B' := by
                  rw [hcut, hB]
                  simp
                have hb : c.cont b ≠ [] := by
                  rcases hl.filled with hne | ⟨y, hy⟩
                  · exact hne b (by rw [hcut']; simp)
                  · rw [hy] at hcut'
                    have := congrArg List.length hcut'
                    simp only [List.length_append, List.length_cons, List.length_nil] at this
                    omega
                have hidx : (A.flatMap c.cont).length + s + 1
                    = ((A ++ [x]).flatMap c.cont).length + 0 := by
                  rw [List.flatMap_append, List.length_append]
                  simp only [List.flatMap_cons, List.flatMap_nil, List.append_nil]
                  omega
                rw [hnext, hidx]
                exact .entry hcut' (List.length_pos_iff.mpr hb)

/-! ## Bounds -/

/-- What the leaf that covers a key cuts the entries into. -/
theorem LeafList.covers (hl : LeafList c l) (hc : Covers c l k x) : ∃ A B n, l = A ++ x :: B
    ∧ c.pages x = some n ∧ c.cont x = n.entries ∧ Increasing n.entries
    ∧ (∀ e ∈ A.flatMap c.cont, e.1 < k) ∧ ∀ e ∈ B.flatMap c.cont, k < e.1 := by
  obtain ⟨A, B, hcut, hB, hA⟩ := hc
  have hx : x ∈ l := by
    rw [hcut]
    simp
  obtain ⟨n, hn, _⟩ := hl.leaf x hx
  have hcont := hl.cont_eq hx hn
  have hsorted := hl.sorted
  rw [hcut, List.flatMap_append, List.flatMap_cons] at hsorted
  obtain ⟨_, hback, hcross⟩ := Increasing.append_iff.mp hsorted
  obtain ⟨hinc, hbehind, _⟩ := Increasing.append_iff.mp hback
  refine ⟨A, B, n, hcut, hn, hcont, hcont ▸ hinc, fun e he => ?_, fun e he => ?_⟩
  · rcases hA with ⟨f, hf, hfk⟩ | rfl
    · have hmem : f ∈ c.cont x := List.mem_of_mem_head? hf
      exact lt_of_lt_of_le (hcross e he f (List.mem_append_left _ hmem)) hfk
    · exact absurd he (by simp)
  · obtain ⟨w, hw, hew⟩ := List.mem_flatMap.mp he
    cases hcw : c.cont w with
    | nil =>
        rw [hcw] at hew
        exact absurd hew (by simp)
    | cons f L =>
        have hfk : k < f.1 := by
          by_contra hle
          exact hB w hw ⟨f, by rw [hcw]; rfl, not_lt.mp hle⟩
        have hincw : Increasing (f :: L) := by
          rw [← hcw]
          exact (List.pairwise_flatMap.mp hbehind).1 w hw
        exact lt_of_lt_of_le hfk (hincw.head_le e (hcw ▸ hew))

end IxCore

/-! ## Frames -/

namespace PageStore

variable {α : Type} {s : PageStore α} {V W : List Int} {x : Int}

/-- The pages of `V` fit into the pool beside the pinned ones, or all of them are pinned. -/
def Room (s : PageStore α) (V : List Int) : Prop :=
  ∀ n, s.frames = some n → (V ++ s.pins).dedup.length ≤ n ∨ ∀ x ∈ V, x ∈ s.pins

/-- The pages are pinned one after the other. -/
theorem room_cons : s.Room (x :: V) ↔ ¬ s.Refuses x ∧ Room { s with pins := x :: s.pins } V := by
  have hsame : (x :: V ++ s.pins).toFinset = (V ++ x :: s.pins).toFinset := by
    ext y
    simp only [List.mem_toFinset, List.mem_append, List.mem_cons]
    tauto
  have hpinned : s.pins.toFinset ⊆ (V ++ x :: s.pins).toFinset := by
    intro y hy
    simp only [List.mem_toFinset, List.mem_append, List.mem_cons] at hy ⊢
    exact .inr (.inr hy)
  have hx : x ∈ (V ++ x :: s.pins).toFinset := by simp
  unfold Room Refuses
  cases hframes : s.frames with
  | none => simp [exhausted_none hframes]
  | some n =>
      have hfull : s.exhausted = true ↔ n ≤ s.pins.toFinset.card := by
        rw [exhausted, hframes, List.card_toFinset]
        exact decide_eq_true_iff
      simp only [Option.some.injEq, forall_eq', ← List.card_toFinset, hsame, List.mem_cons,
        forall_eq_or_imp, hfull]
      by_cases hpin : x ∈ s.pins
      · have hall : ∀ y, y = x ∨ y ∈ s.pins ↔ y ∈ s.pins := fun y =>
          or_iff_right_of_imp fun h => h ▸ hpin
        simp [hpin, hall]
      · -- one frame more is pinned
        have hx' : x ∉ s.pins.toFinset := by simpa using hpin
        have hcard := Finset.card_lt_card (Finset.ssubset_iff_subset_ne.mpr
          ⟨hpinned, fun heq => hx' (heq ▸ hx)⟩)
        simp only [hpin, false_and, or_false, not_false_eq_true, and_true, not_le]
        constructor
        · exact fun h => ⟨by omega, .inl h⟩
        · rintro ⟨hlt, h | h⟩
          · exact h
          · have hins : (V ++ x :: s.pins).toFinset = insert x s.pins.toFinset := by
              ext y
              simp only [List.mem_toFinset, List.mem_append, List.mem_cons, Finset.mem_insert]
              exact or_iff_right_of_imp (h y)
            rw [hins, Finset.card_insert_of_notMem hx']
            exact hlt

/-- Fewer pages fit as well. -/
theorem Room.mono (h : s.Room W) (hVW : ∀ x ∈ V, x ∈ W) : s.Room V := by
  intro n hn
  refine (h n hn).imp (fun hle => ?_) (fun hall x hx => hall x (hVW x hx))
  rw [← List.card_toFinset] at hle ⊢
  refine (Finset.card_le_card fun x hx => ?_).trans hle
  simp only [List.mem_toFinset, List.mem_append] at hx ⊢
  exact hx.imp_left (hVW x)

theorem room_nil : s.Room [] := fun _ _ => .inr (by simp)

theorem room_singleton : s.Room [x] ↔ ¬ s.Refuses x := by
  rw [room_cons]
  exact and_iff_left room_nil

theorem Room.not_refuses (h : s.Room V) (hx : x ∈ V) : ¬ s.Refuses x :=
  room_singleton.mp (h.mono fun _ hy => List.mem_singleton.mp hy ▸ hx)

end PageStore

namespace IxIndexHandle

open IxCore

variable {κ : Type} {s t u : IxIndexHandle κ} {l : List Int} {x : Int}
  {n : IxNode κ} {p q : Iid} {i j fuel : Nat} {k : κ}

/-- The handle as it was, apart from what is recorded of it. -/
def Same (s t : IxIndexHandle κ) : Prop := t.fileHdr = s.fileHdr ∧ t.store = s.store

theorem Same.core (h : Same s t) : t.core = s.core := by
  unfold IxIndexHandle.core
  rw [h.1, h.2]

/-- The handle once page `x` was fetched. -/
def pinned (s : IxIndexHandle κ) (x : Int) : IxIndexHandle κ :=
  { s with store := { s.store with pins := x :: s.store.pins } }

/-- The handle once page `x` was unpinned. -/
def letGo (s : IxIndexHandle κ) (x : Int) : IxIndexHandle κ :=
  { s with store := s.store.unpinPage x, unpinned := (x, s.store.pins) :: s.unpinned }

theorem Same.trans (h : Same s t) (h' : Same t u) : Same s u :=
  ⟨h'.1.trans h.1, h'.2.trans h.2⟩

/-- A page that was pinned and unpinned. -/
theorem Same.letGo (h : Same (s.pinned x) t) : Same s (t.letGo x) := by
  refine ⟨h.1, ?_⟩
  show t.store.unpinPage x = s.store
  rw [h.2]
  exact congrArg (fun pins => { s.store with pins := pins }) (List.erase_cons_head ..)

theorem same_touched : Same s ((s.pinned x).letGo x) := Same.letGo ⟨rfl, rfl⟩

theorem Same.pinned (h : Same s t) : Same (s.pinned x) (t.pinned x) := by
  refine ⟨h.1, ?_⟩
  show ({ t.store with pins := x :: t.store.pins } : PageStore _) = _
  rw [h.2]
  rfl

variable [Inhabited κ]

theorem node_pinned (hn : s.core.pages x = some n) : (s.pinned x).node x = n := node_of_some hn

theorem run_getRid (hr : ¬ s.store.Refuses p.pageNo) (hn : s.core.pages p.pageNo = some n)
    (hs : p.slotNo < n.numKey) :
    (getRid p).run s = .ok (n.rids p.slotNo) ((s.pinned p.pageNo).letGo p.pageNo) := by
  unfold getRid
  rw [bind_ok (run_fetchNode_some hr hn), run_get_bind, ← pinned, node_pinned hn,
    if_neg (by omega), unpinPage, run_modify_bind]
  rfl

theorem run_leafEnd (hr : ¬ s.store.Refuses s.fileHdr.lastLeaf)
    (hn : s.core.pages s.fileHdr.lastLeaf = some n) :
    leafEnd.run s = .ok ⟨s.fileHdr.lastLeaf, n.numKey⟩
      ((s.pinned s.fileHdr.lastLeaf).letGo s.fileHdr.lastLeaf) := by
  unfold leafEnd
  rw [run_get_bind, bind_ok (run_fetchNode_some hr hn), run_get_bind, ← pinned, node_pinned hn,
    unpinPage, run_modify_bind]
  rfl

theorem run_leafEnd_refused (hr : s.store.Refuses s.fileHdr.lastLeaf) :
    leafEnd.run s = .error .undefinedBehaviour s := by
  unfold leafEnd
  rw [run_get_bind]
  exact bind_eq_error.mpr (.inl (run_fetchNode_refused hr))

variable [LinearOrder κ]

section

variable {find : κ → IxM κ Int}

/-- `find` gets leaf `x`, pinned, and changes nothing else. -/
def Finds (find : κ → IxM κ Int) (k : κ) (x : Int) (s : IxIndexHandle κ) : Prop :=
  ∀ t, Same s t → ∃ u, (find k).run t = .ok x u ∧ Same (t.pinned x) u

omit [LinearOrder κ] [Inhabited κ] in
theorem Finds.same (hf : Finds find k x s) (h : Same s t) : Finds find k x t :=
  fun _ hu => hf _ (h.trans hu)

theorem run_lowerBoundVia (hf : Finds find k x s) (hn : s.core.pages x = some n) :
    ∃ t, Same s t ∧ (lowerBoundVia find k).run s = .ok ⟨x, n.lowerBound k⟩ t := by
  obtain ⟨u, hrun, hu⟩ := hf s ⟨rfl, rfl⟩
  have hnode : u.node x = n := by
    rw [IxIndexHandle.node, hu.2]
    exact node_of_some hn
  refine ⟨u.letGo x, hu.letGo, ?_⟩
  unfold lowerBoundVia
  rw [bind_ok hrun, run_get_bind, hnode, unpinPage, run_modify_bind]
  rfl

/-- `upper_bound` inside the leaf. -/
theorem run_upperBoundVia (hf : Finds find k x s) (hn : s.core.pages x = some n)
    (hk : n.upperBound k ≠ n.numKey) :
    ∃ t, Same s t ∧ (upperBoundVia find k).run s = .ok ⟨x, n.upperBound k⟩ t := by
  obtain ⟨u, hrun, hu⟩ := hf s ⟨rfl, rfl⟩
  have hnode : u.node x = n := by
    rw [IxIndexHandle.node, hu.2]
    exact node_of_some hn
  refine ⟨u.letGo x, hu.letGo, ?_⟩
  unfold upperBoundVia
  rw [bind_ok hrun, run_get_bind]
  dsimp only
  rw [hnode, if_neg hk, run_pure_bind, unpinPage, run_modify_bind]
  rfl

/-- `upper_bound` behind the leaf. -/
theorem run_upperBoundVia_end {m : IxNode κ} (hf : Finds find k x s)
    (hn : s.core.pages x = some n) (hk : n.upperBound k = n.numKey)
    (hm : s.core.pages s.fileHdr.lastLeaf = some m) :
    (¬ (s.pinned x).store.Refuses s.fileHdr.lastLeaf → ∃ t, Same s t
        ∧ (upperBoundVia find k).run s = .ok ⟨s.fileHdr.lastLeaf, m.numKey⟩ t)
      ∧ ((s.pinned x).store.Refuses s.fileHdr.lastLeaf → ∃ t,
        (upperBoundVia find k).run s = .error .undefinedBehaviour t) := by
  obtain ⟨u, hrun, hu⟩ := hf s ⟨rfl, rfl⟩
  have hnode : u.node x = n := by
    rw [IxIndexHandle.node, hu.2]
    exact node_of_some hn
  have hlast : u.fileHdr.lastLeaf = s.fileHdr.lastLeaf := congrArg IxFileHdr.lastLeaf hu.1
  have hum : u.core.pages u.fileHdr.lastLeaf = some m := by
    rw [hu.core, hlast]
    exact hm
  constructor
  · intro hr
    rw [← hu.2, ← hlast] at hr
    refine ⟨((u.pinned u.fileHdr.lastLeaf).letGo u.fileHdr.lastLeaf).letGo x,
      (hu.trans same_touched).letGo, ?_⟩
    unfold upperBoundVia
    rw [bind_ok hrun, run_get_bind]
    dsimp only
    rw [hnode, if_pos hk, bind_ok (run_leafEnd hr hum), unpinPage, run_modify_bind, hlast]
    rfl
  · intro hr
    rw [← hu.2, ← hlast] at hr
    refine ⟨u, ?_⟩
    unfold upperBoundVia
    rw [bind_ok hrun, run_get_bind]
    dsimp only
    rw [hnode, if_pos hk]
    exact bind_eq_error.mpr (.inl (run_leafEnd_refused hr))

end

end IxIndexHandle

namespace IxScan

open IxCore IxIndexHandle

variable {κ : Type} {c : IxCore κ} {s : IxIndexHandle κ}
  {l : List Int} {x y : Int} {n : IxNode κ} {p q : Iid} {i j fuel : Nat} {lo hi : κ}

section

variable [Inhabited κ]

theorem isEnd_iff : isEnd ⟨p, q⟩ = true ↔ p = q := decide_eq_true_iff

/-- A cursor that has not come to its end moves on, and its leaf stays pinned. -/
theorem run_next (hr : ¬ s.store.Refuses p.pageNo) (hn : s.core.pages p.pageNo = some n)
    (hleaf : n.isLeaf = true) (hs : p.slotNo < n.numKey) (hne : p ≠ q) :
    (IxScan.next ⟨p, q⟩).run s
      = .ok ⟨if p.pageNo ≠ s.fileHdr.lastLeaf ∧ p.slotNo + 1 = n.numKey then ⟨n.nextLeaf, 0⟩
        else ⟨p.pageNo, p.slotNo + 1⟩, q⟩ (s.pinned p.pageNo) := by
  unfold next
  rw [if_neg (mt isEnd_iff.mp hne), bind_ok (run_fetchNode_some hr hn), run_get_bind, ← pinned]
  simp only [node_pinned hn]
  rw [if_neg (by rw [hleaf]; simp), if_neg (by omega)]
  show (if p.pageNo ≠ s.fileHdr.lastLeaf ∧ p.slotNo + 1 = n.numKey then _ else _ : IxM κ _).run _
    = _
  split <;> rfl

/-- The first entry of a piece of the list. -/
theorem take_drop_cons {α : Type} {es : List α} {e : α} {k : Nat} (h : es[i]? = some e) :
    (es.drop i).take (k + 1) = e :: (es.drop (i + 1)).take k := by
  obtain ⟨hlt, hget⟩ := List.getElem?_eq_some_iff.mp h
  rw [List.drop_eq_getElem_cons hlt, List.take_succ_cons, hget]

/-- A round of the loop, on a page that is not refused. -/
theorem run_collect_succ (fuel : Nat) (hr : ¬ s.store.Refuses p.pageNo)
    (hn : s.core.pages p.pageNo = some n) (hleaf : n.isLeaf = true) (hs : p.slotNo < n.numKey) (hne : p ≠ q) :
    (collect (fuel + 1) ⟨p, q⟩).run s = (do
      let rest ← collect fuel ⟨if p.pageNo ≠ s.fileHdr.lastLeaf ∧ p.slotNo + 1 = n.numKey
        then ⟨n.nextLeaf, 0⟩ else ⟨p.pageNo, p.slotNo + 1⟩, q⟩
      return n.rids p.slotNo :: rest : IxM κ (List Rid)).run
        (((s.pinned p.pageNo).letGo p.pageNo).pinned p.pageNo) := by
  have hsame : Same s ((s.pinned p.pageNo).letGo p.pageNo) := same_touched
  have hnext := run_next (s := (s.pinned p.pageNo).letGo p.pageNo) (q := q)
    (by rw [hsame.2]; exact hr) (by rw [hsame.core]; exact hn) hleaf hs hne
  rw [hsame.1] at hnext
  rw [collect, if_neg (mt isEnd_iff.mp hne), rid, bind_ok (run_getRid hr hn hs), bind_ok hnext]

theorem run_collect_refused (hr : s.store.Refuses p.pageNo) (hne : p ≠ q) :
    (collect (fuel + 1) ⟨p, q⟩ : IxM κ (List Rid)).run s = .error .undefinedBehaviour s := by
  unfold collect
  rw [if_neg (mt isEnd_iff.mp hne), rid, getRid]
  exact bind_eq_error.mpr (.inl (bind_eq_error.mpr (.inl (run_fetchNode_refused hr))))

/-- **A scan between two positions of the cursor** returns what is between them if the leaves fit
into the pool, and uses the null page if they do not. -/
theorem run_collect [LinearOrder κ] (hl : LeafList c l) (hj : Cursor c l j q) (k : Nat) :
    ∀ {i : Nat} {p : Iid} {s : IxIndexHandle κ}, Cursor c l i p → i + k = j → s.core = c →
      (s.store.Room ((((c.places l).drop i).take k).map (·.2.1)) →
        (∀ fuel, k < fuel → ∃ t, (collect fuel ⟨p, q⟩).run s
          = .ok ((((c.places l).drop i).take k).map (·.2.2)) t ∧ t.core = c)
        ∧ ∀ fuel, fuel ≤ k → ∃ t, (collect fuel ⟨p, q⟩).run s = .error .outOfFuel t)
      ∧ (¬ s.store.Room ((((c.places l).drop i).take k).map (·.2.1)) →
        ∀ fuel, k < fuel → ∃ t, (collect fuel ⟨p, q⟩).run s = .error .undefinedBehaviour t) := by
  induction k with
  | zero =>
      intro i p s hi hij hs
      obtain rfl := hi.position hj hij
      rw [List.take_zero, List.map_nil]
      refine ⟨fun _ => ⟨fun fuel hfuel => ?_, fun fuel hfuel => ?_⟩,
        fun h => absurd PageStore.room_nil h⟩
      · obtain ⟨fuel, rfl⟩ := Nat.exists_eq_succ_of_ne_zero (Nat.ne_of_gt hfuel)
        exact ⟨s, by rw [collect, if_pos (isEnd_iff.mpr rfl)]; rfl, hs⟩
      · obtain rfl := Nat.le_zero.mp hfuel
        exact ⟨s, rfl⟩
  | succ k ih =>
      intro i p s hi hij hs
      have hpq : p ≠ q := by
        rintro rfl
        have := hi.unique hl hj
        omega
      have hjle := hj.le
      obtain ⟨n, hn, hleaf, hslot, hat, hnext⟩ := hi.step hl (by omega)
      have hn' : s.core.pages p.pageNo = some n := by rw [hs, hn]
      rw [take_drop_cons hat, List.map_cons, List.map_cons, PageStore.room_cons]
      by_cases hr : s.store.Refuses p.pageNo
      · refine ⟨fun h => absurd hr h.1, fun _ fuel hfuel => ?_⟩
        obtain ⟨fuel, rfl⟩ := Nat.exists_eq_succ_of_ne_zero (n := fuel) (by omega)
        exact ⟨s, run_collect_refused hr hpq⟩
      · -- one round, and the leaf stays pinned
        have hround (fuel : Nat) := run_collect_succ fuel hr hn' hleaf hslot hpq
        have hsame : Same (s.pinned p.pageNo)
            (((s.pinned p.pageNo).letGo p.pageNo).pinned p.pageNo) := same_touched.pinned
        have hhdr : s.fileHdr = c.hdr := congrArg IxCore.hdr hs
        rw [hhdr] at hround
        obtain ⟨hroom, hlost⟩ := ih hnext (by omega) (hsame.core.trans hs)
        rw [hsame.2] at hroom hlost
        rw [and_iff_right hr]
        refine ⟨fun h => ⟨fun fuel hfuel => ?_, fun fuel hfuel => ?_⟩, fun h fuel hfuel => ?_⟩
        · obtain ⟨fuel, rfl⟩ := Nat.exists_eq_succ_of_ne_zero (n := fuel) (by omega)
          obtain ⟨t, hrun, ht⟩ := (hroom h).1 fuel (by omega)
          exact ⟨t, by rw [hround, bind_ok hrun]; rfl, ht⟩
        · cases fuel with
          | zero => exact ⟨s, rfl⟩
          | succ fuel =>
              obtain ⟨t, hrun⟩ := (hroom h).2 fuel (by omega)
              exact ⟨t, by rw [hround]; exact bind_eq_error.mpr (.inl hrun)⟩
        · obtain ⟨fuel, rfl⟩ := Nat.exists_eq_succ_of_ne_zero (n := fuel) (by omega)
          obtain ⟨t, hrun⟩ := hlost h fuel (by omega)
          exact ⟨t, by rw [hround]; exact bind_eq_error.mpr (.inl hrun)⟩

/-! ## The full scan -/

/-- The full scan returns the rids of all entries, in key order, after as many steps as there are
entries. -/
structure FullRight (s : IxIndexHandle κ) (l : List Int) : Prop where
  scan : ∀ fuel, (l.flatMap s.core.cont).length < fuel → ∃ t, (full fuel).run s
    = .ok ((l.flatMap s.core.cont).map Prod.snd) t ∧ t.core = s.core
  steps : ∀ fuel, fuel ≤ (l.flatMap s.core.cont).length → ∃ t,
    (full fuel).run s = .error .outOfFuel t

/-- `leaf_begin`, `leaf_end`, and the loop. -/
theorem run_full (hr : ¬ s.store.Refuses s.fileHdr.lastLeaf)
    (hn : s.core.pages s.fileHdr.lastLeaf = some n) : ∃ t, Same s t ∧ ∀ fuel, (full fuel).run s
      = (collect fuel ⟨⟨s.fileHdr.firstLeaf, 0⟩, ⟨s.fileHdr.lastLeaf, n.numKey⟩⟩).run t :=
  ⟨_, same_touched, fun fuel => by rw [full, leafBegin, bind_assoc, run_get_bind, run_pure_bind,
    bind_ok (run_leafEnd hr hn)]⟩

theorem run_full_refused (hr : s.store.Refuses s.fileHdr.lastLeaf) :
    (full fuel : IxM κ (List Rid)).run s = .error .undefinedBehaviour s := by
  rw [full, leafBegin, bind_assoc, run_get_bind, run_pure_bind]
  exact bind_eq_error.mpr (.inl (run_leafEnd_refused hr))

end

variable [LinearOrder κ] [Inhabited κ]

/-- Every leaf has an entry, or there is only one leaf. -/
theorem room_leaves (hl : LeafList c l) {st : PageStore (IxNode κ)}
    (hroom : st.Room ((c.places l).map (·.2.1))) (hlast : ¬ st.Refuses c.hdr.lastLeaf) :
    st.Room l := by
  rcases hl.filled with hne | ⟨x, rfl⟩
  · refine hroom.mono fun x hx => ?_
    obtain ⟨e, he⟩ := List.exists_mem_of_ne_nil _ (hne x hx)
    exact List.mem_map.mpr ⟨(e.1, x, e.2), mem_places.mpr ⟨hx, he⟩, rfl⟩
  · have hx : c.hdr.lastLeaf = x := List.mem_singleton.mp hl.last_mem
    exact PageStore.room_singleton.mpr (hx ▸ hlast)

/-- **When the full scan is right**: the leaves have to fit into the pool, since `next` unpins
none of them. -/
theorem fullRight_iff (hl : LeafList s.core l) : FullRight s l ↔ s.store.Room l := by
  obtain ⟨n, hn, hstop⟩ := hl.stop
  have hlen : (s.core.places l).length = (l.flatMap s.core.cont).length := by
    rw [← map_places, List.length_map]
  have hall : ((s.core.places l).drop 0).take (l.flatMap s.core.cont).length
      = s.core.places l := by
    rw [List.drop_zero, ← hlen, List.take_length]
  have hrids : (s.core.places l).map (·.2.2) = (l.flatMap s.core.cont).map Prod.snd := by
    rw [← map_places, List.map_map]
    rfl
  have hcollect : ∀ {t}, Same s t → _ := fun {t} (ht : Same s t) =>
    run_collect hl hstop _ hl.begin (Nat.zero_add _) ht.core
  constructor
  · intro hf
    obtain ⟨t, hrun, _⟩ := hf.scan _ (Nat.lt_succ_self _)
    have hlast : ¬ s.store.Refuses s.fileHdr.lastLeaf := fun hr => by
      rw [run_full_refused hr] at hrun
      cases hrun
    obtain ⟨u, hu, hloop⟩ := run_full hlast hn
    obtain ⟨_, hlost⟩ := hcollect hu
    rw [hall, hu.2] at hlost
    refine room_leaves hl ?_ hlast
    by_contra hroom
    obtain ⟨v, hv⟩ := hlost hroom _ (Nat.lt_succ_self _)
    rw [hloop] at hrun
    exact absurd (hv.symm.trans hrun) (by simp)
  · intro hroom
    have hlast : ¬ s.store.Refuses s.fileHdr.lastLeaf := hroom.not_refuses hl.last_mem
    obtain ⟨u, hu, hloop⟩ := run_full hlast hn
    obtain ⟨hreturns, _⟩ := hcollect hu
    rw [hall, hu.2, hrids] at hreturns
    obtain ⟨hok, hshort⟩ := hreturns (hroom.mono fun x hx => by
      obtain ⟨e, he, rfl⟩ := List.mem_map.mp hx
      exact (mem_places.mp he).1)
    exact ⟨fun fuel hfuel => by rw [hloop]; exact hok fuel hfuel,
      fun fuel hfuel => by rw [hloop]; exact hshort fuel hfuel⟩

/-! ## Range scans -/

/-- The scan from `lower_bound(lo)` to `upper_bound(hi)` returns the rids of the keys in
`[lo, hi]`, and its two ends are the positions of the first key that is not smaller than `lo`
and the first that is greater than `hi`. -/
structure RangeRight (s : IxIndexHandle κ) (l : List Int) (find : κ → IxM κ Int) (lo hi : κ) :
    Prop where
  scan : ∃ rounds, ∀ fuel, rounds ≤ fuel → ∃ t, (range find fuel lo hi).run s
    = .ok (((l.flatMap s.core.cont).filter (fun e => lo ≤ e.1 ∧ e.1 ≤ hi)).map Prod.snd) t
      ∧ t.core = s.core
  lower : ∃ p t, (lowerBoundVia find lo).run s = .ok p t
    ∧ Cursor s.core l ((l.flatMap s.core.cont).countP (fun e => e.1 < lo)) p
  upper : ∃ p t, (upperBoundVia find hi).run s = .ok p t
    ∧ Cursor s.core l ((l.flatMap s.core.cont).countP (fun e => e.1 ≤ hi)) p

/-- The leaves that have an entry with a key in `[lo, hi]`. -/
def leavesWithin (c : IxCore κ) (l : List Int) (lo hi : κ) : List Int :=
  l.filter fun w => (c.cont w).any fun e => lo ≤ e.1 ∧ e.1 ≤ hi

/-- In the last leaf, the end is the right position. -/
theorem count_last (hl : LeafList c l) (hy : Covers c l hi y) (hlast : y = c.hdr.lastLeaf)
    (hall : ∀ e ∈ c.cont y, e.1 ≤ hi) :
    (l.flatMap c.cont).countP (fun e => e.1 ≤ hi) = (l.flatMap c.cont).length := by
  obtain ⟨A, B, n, hcut, _, _, _, hA, _⟩ := hl.covers hy
  rw [List.countP_eq_length, hcut, (hl.last_iff hcut).mp hlast]
  intro e he
  rw [List.flatMap_append, List.mem_append, List.flatMap_cons, List.flatMap_nil, List.append_nil] at he
  refine decide_eq_true ?_
  rcases he with he | he
  · exact le_of_lt (hA e he)
  · exact hall e he

/-- Behind a leaf that is not the last there is an entry. -/
theorem count_not_last (hl : LeafList c l) (hy : Covers c l hi y) (hlast : y ≠ c.hdr.lastLeaf) :
    (l.flatMap c.cont).countP (fun e => e.1 ≤ hi) < (l.flatMap c.cont).length := by
  obtain ⟨A, B, n, hcut, _, _, _, _, hB⟩ := hl.covers hy
  rcases Nat.lt_or_ge ((l.flatMap c.cont).countP (fun e => e.1 ≤ hi)) (l.flatMap c.cont).length with h | h
  · exact h
  · have hall := List.countP_eq_length.mp (Nat.le_antisymm List.countP_le_length h)
    cases hBc : B with
    | nil => exact absurd ((hl.last_iff hcut).mpr hBc) hlast
    | cons b B' =>
        have hne : c.cont b ≠ [] := by
          rcases hl.filled with hne | ⟨z, hz⟩
          · exact hne b (by rw [hcut, hBc]; simp)
          · rw [hz, hBc] at hcut
            have := congrArg List.length hcut
            simp only [List.length_append, List.length_cons, List.length_nil] at this
            omega
        obtain ⟨e, he⟩ := List.exists_mem_of_ne_nil _ hne
        have heB : e ∈ B.flatMap c.cont := by
          rw [hBc]
          exact List.mem_flatMap.mpr ⟨b, by simp, he⟩
        have hel : e ∈ l.flatMap c.cont := by
          rw [hcut, List.flatMap_append, List.flatMap_cons]
          exact List.mem_append_right _ (List.mem_append_right _ heB)
        exact absurd (of_decide_eq_true (hall e hel)) (not_le.mpr (hB e heB))

section

variable {find : κ → IxM κ Int} (hl : LeafList s.core l)

include hl

/-- `lower_bound` is a position of the cursor unless its key is behind all of a leaf that is not
the last. -/
theorem lower_cursor_iff (hx : Covers s.core l lo x) (hfx : Finds find lo x s) :
    (∃ p t, (lowerBoundVia find lo).run s = .ok p t
      ∧ Cursor s.core l ((l.flatMap s.core.cont).countP (fun e => e.1 < lo)) p)
    ↔ x = s.core.hdr.lastLeaf ∨ ∃ e ∈ s.core.cont x, lo ≤ e.1 := by
  obtain ⟨A, B, n, hcut, hn, hcont, hinc, hA, hB⟩ := hl.covers hx
  obtain ⟨hcount, _⟩ := count_around hcut hcont hinc hA hB
  obtain ⟨_, h2, h3⟩ := IxNode.lowerBound_spec hinc lo
  obtain ⟨t, _, hrun⟩ := run_lowerBoundVia hfx hn
  have hsize : (s.core.cont x).length = n.numKey := by rw [hcont, IxNode.length_entries]
  rw [hcount]
  constructor
  · rintro ⟨p, u, hp, hcur⟩
    obtain ⟨rfl, rfl⟩ := EStateM.Result.ok.inj (hrun.symm.trans hp)
    generalize (A.flatMap s.core.cont).length + n.lowerBound lo = i at hcur
    generalize hpos : (⟨x, n.lowerBound lo⟩ : Iid) = p at hcur
    cases hcur with
    | entry _ hs =>
        obtain ⟨rfl, rfl⟩ := Iid.mk.inj hpos
        rw [hsize] at hs
        refine .inr ⟨(n.keys (n.lowerBound lo), n.rids (n.lowerBound lo)), ?_, h3 _ (Nat.le_refl _) hs⟩
        rw [hcont]
        exact IxNode.mem_entries.mpr ⟨_, hs, rfl⟩
    | stop => exact .inl (Iid.mk.inj hpos).1
  · intro hin
    refine ⟨_, t, hrun, ?_⟩
    rcases Nat.lt_or_ge (n.lowerBound lo) n.numKey with hlt | hge
    · exact .entry hcut (by rw [hsize]; exact hlt)
    · have hlast : x = s.core.hdr.lastLeaf := by
        refine hin.resolve_right (fun ⟨e, he, hle⟩ => ?_)
        rw [hcont] at he
        obtain ⟨i, hi, rfl⟩ := IxNode.mem_entries.mp he
        exact absurd hle (not_le.mpr (h2 i (by omega)))
      have hle : n.lowerBound lo ≤ n.numKey := (IxNode.lowerBound_spec hinc lo).1
      have hstop := Cursor.stop (c := s.core) (l := l)
      have htotal : (l.flatMap s.core.cont).length
          = (A.flatMap s.core.cont).length + n.lowerBound lo := by
        rw [hcut, (hl.last_iff hcut).mp hlast, List.flatMap_append, List.flatMap_cons,
          List.length_append, List.length_append, hsize]
        simp only [List.flatMap_nil, List.length_nil]
        omega
      rw [← hlast, hsize, htotal, show n.numKey = n.lowerBound lo by omega] at hstop
      exact hstop

/-- So is `upper_bound`, and it is the right one unless its key is behind all of a leaf that is
not the last. -/
theorem upper_cursor_iff (hy : Covers s.core l hi y) (hfy : Finds find hi y s) :
    (∃ p t, (upperBoundVia find hi).run s = .ok p t
      ∧ Cursor s.core l ((l.flatMap s.core.cont).countP (fun e => e.1 ≤ hi)) p)
    ↔ y = s.core.hdr.lastLeaf ∨ ∃ e ∈ s.core.cont y, hi < e.1 := by
  obtain ⟨A, B, n, hcut, hn, hcont, hinc, hA, hB⟩ := hl.covers hy
  obtain ⟨_, hcount⟩ := count_around hcut hcont hinc hA hB
  obtain ⟨hle, h2, h3⟩ := IxNode.upperBound_spec hinc hi
  obtain ⟨m, hm, hstop⟩ := hl.stop
  by_cases hend : n.upperBound hi = n.numKey
  · have hall : ∀ e ∈ s.core.cont y, e.1 ≤ hi := by
      intro e he
      rw [hcont] at he
      obtain ⟨i, hi, rfl⟩ := IxNode.mem_entries.mp he
      exact h2 i (by omega)
    obtain ⟨hok, hlost⟩ := run_upperBoundVia_end hfy hn hend hm
    constructor
    · rintro ⟨p, t, hrun, hcur⟩
      refine .inl ?_
      by_contra hlast
      by_cases hr : (s.pinned y).store.Refuses s.fileHdr.lastLeaf
      · obtain ⟨u, hu⟩ := hlost hr
        exact absurd (hu.symm.trans hrun) (by simp)
      · obtain ⟨u, _, hu⟩ := hok hr
        obtain ⟨rfl, rfl⟩ := EStateM.Result.ok.inj (hu.symm.trans hrun)
        have hsame := hcur.unique hl hstop
        have := count_not_last hl hy hlast
        omega
    · intro hin
      have hlast := hin.resolve_right fun ⟨e, he, hlt⟩ => absurd (hall e he) (not_le.mpr hlt)
      -- the last leaf is pinned already
      obtain ⟨u, _, hu⟩ := hok fun hr => hr.2 (hlast ▸ List.mem_cons_self)
      exact ⟨_, u, hu, count_last hl hy hlast hall ▸ hstop⟩
  · obtain ⟨t, _, hrun⟩ := run_upperBoundVia hfy hn hend
    refine iff_of_true ⟨_, t, hrun, ?_⟩ (.inr ⟨(n.keys (n.upperBound hi), n.rids (n.upperBound hi)),
      ?_, h3 _ (Nat.le_refl _) (by omega)⟩)
    · rw [hcount]
      exact .entry hcut (by rw [hcont, IxNode.length_entries]; omega)
    · rw [hcont]
      exact IxNode.mem_entries.mpr ⟨n.upperBound hi, by omega, rfl⟩

theorem lower_same (hx : Covers s.core l lo x) (hfx : Finds find lo x s) {t : IxIndexHandle κ}
    (hrun : (lowerBoundVia find lo).run s = .ok p t) : Same s t := by
  obtain ⟨_, _, n, _, hn, _⟩ := hl.covers hx
  obtain ⟨u, hu, hrun'⟩ := run_lowerBoundVia hfx hn
  obtain ⟨_, rfl⟩ := EStateM.Result.ok.inj (hrun'.symm.trans hrun)
  exact hu

theorem upper_same (hy : Covers s.core l hi y) (hfy : Finds find hi y s) {t : IxIndexHandle κ}
    (hrun : (upperBoundVia find hi).run s = .ok p t) : Same s t := by
  obtain ⟨_, _, n, _, hn, _⟩ := hl.covers hy
  obtain ⟨m, hm, _⟩ := hl.stop
  by_cases hend : n.upperBound hi = n.numKey
  · obtain ⟨hok, hlost⟩ := run_upperBoundVia_end hfy hn hend hm
    by_cases hr : (s.pinned y).store.Refuses s.fileHdr.lastLeaf
    · obtain ⟨u, hu⟩ := hlost hr
      exact absurd (hu.symm.trans hrun) (by simp)
    · obtain ⟨u, hsame, hu⟩ := hok hr
      obtain ⟨_, rfl⟩ := EStateM.Result.ok.inj (hu.symm.trans hrun)
      exact hsame
  · obtain ⟨u, hsame, hu⟩ := run_upperBoundVia hfy hn hend
    obtain ⟨_, rfl⟩ := EStateM.Result.ok.inj (hu.symm.trans hrun)
    exact hsame

/-- The entries of the range lie in its leaves. -/
theorem mem_leavesWithin (hle : lo ≤ hi) : x ∈ leavesWithin s.core l lo hi ↔
    x ∈ (((s.core.places l).drop ((l.flatMap s.core.cont).countP (fun e => e.1 < lo))).take
      ((l.flatMap s.core.cont).countP (fun e => e.1 ≤ hi)
        - (l.flatMap s.core.cont).countP (fun e => e.1 < lo))).map (·.2.1) := by
  have hfilter := (places_sorted hl).filter_range hle
  rw [← map_places, List.countP_map, List.countP_map]
  show _ ↔ x ∈ List.map (·.2.1) (((s.core.places l).drop
    ((s.core.places l).countP fun e => e.1 < lo)).take ((s.core.places l).countP (fun e => e.1 ≤ hi)
      - (s.core.places l).countP fun e => e.1 < lo))
  rw [← hfilter, leavesWithin, List.mem_filter, List.any_eq_true, List.mem_map]
  constructor
  · rintro ⟨hx, e, he, hin⟩
    exact ⟨(e.1, x, e.2), List.mem_filter.mpr ⟨mem_places.mpr ⟨hx, he⟩, hin⟩, rfl⟩
  · rintro ⟨e, he, rfl⟩
    obtain ⟨hplace, hin⟩ := List.mem_filter.mp he
    obtain ⟨hx, hcont⟩ := mem_places.mp hplace
    exact ⟨hx, _, hcont, hin⟩

/-- A scan whose two ends are the right positions. -/
theorem range_scan_iff (hx : Covers s.core l lo x) (hfx : Finds find lo x s)
    (hy : Covers s.core l hi y) (hfy : Finds find hi y s) (hle : lo ≤ hi)
    (hlow : x = s.core.hdr.lastLeaf ∨ ∃ e ∈ s.core.cont x, lo ≤ e.1)
    (hup : y = s.core.hdr.lastLeaf ∨ ∃ e ∈ s.core.cont y, hi < e.1) :
    (∃ rounds, ∀ fuel, rounds ≤ fuel → ∃ t, (range find fuel lo hi).run s
        = .ok (((l.flatMap s.core.cont).filter (fun e => lo ≤ e.1 ∧ e.1 ≤ hi)).map Prod.snd) t
          ∧ t.core = s.core)
      ↔ s.store.Room (leavesWithin s.core l lo hi) := by
  obtain ⟨p, t, hrun, hp⟩ := (lower_cursor_iff hl hx hfx).mpr hlow
  have ht := lower_same hl hx hfx hrun
  have hlt : LeafList t.core l := ht.core ▸ hl
  have hyt : Covers t.core l hi y := ht.core ▸ hy
  obtain ⟨q, u, hrun', hq⟩ := (upper_cursor_iff hlt hyt (hfy.same ht)).mpr (ht.core ▸ hup)
  have hu : Same s u := ht.trans (upper_same hlt hyt (hfy.same ht) hrun')
  rw [ht.core] at hq
  obtain ⟨hreturns, hlost⟩ := run_collect hl hq _ hp
    (Nat.add_sub_cancel' (count_lt_le hle)) hu.core
  have hloop : ∀ fuel, (range find fuel lo hi).run s = (collect fuel ⟨p, q⟩).run u := fun fuel => by
    rw [range, bind_ok hrun, bind_ok hrun']
  have hrids : (((s.core.places l).drop ((l.flatMap s.core.cont).countP (fun e => e.1 < lo))).take
      ((l.flatMap s.core.cont).countP (fun e => e.1 ≤ hi)
        - (l.flatMap s.core.cont).countP (fun e => e.1 < lo))).map (·.2.2)
      = ((l.flatMap s.core.cont).filter (fun e => lo ≤ e.1 ∧ e.1 ≤ hi)).map Prod.snd := by
    rw [hl.sorted.filter_range hle]
    generalize (l.flatMap s.core.cont).countP (fun e => e.1 < lo) = i
    generalize (l.flatMap s.core.cont).countP (fun e => e.1 ≤ hi) - i = k
    rw [← map_places, ← List.map_drop, ← List.map_take, List.map_map]
    rfl
  have hroom : ∀ V, (∀ w, w ∈ leavesWithin s.core l lo hi ↔ w ∈ V) →
      (s.store.Room (leavesWithin s.core l lo hi) ↔ s.store.Room V) := fun V h =>
    ⟨fun hr => hr.mono fun w hw => (h w).mpr hw, fun hr => hr.mono fun w hw => (h w).mp hw⟩
  rw [hu.2, hrids] at hreturns
  rw [hu.2] at hlost
  rw [hroom _ fun w => mem_leavesWithin hl hle]
  constructor
  · rintro ⟨rounds, hscan⟩
    by_contra hno
    obtain ⟨v, hv⟩ := hlost hno (rounds + (l.flatMap s.core.cont).length + 1)
      (by have := hq.le; omega)
    obtain ⟨w, hw, _⟩ := hscan (rounds + (l.flatMap s.core.cont).length + 1) (by omega)
    rw [hloop] at hw
    exact absurd (hv.symm.trans hw) (by simp)
  · intro hfit
    refine ⟨(l.flatMap s.core.cont).length + 1, fun fuel hfuel => ?_⟩
    rw [hloop]
    exact (hreturns hfit).1 fuel (by have := hq.le; omega)

/-- **When a range scan is exact**: each of the two keys has to be in or before the last entry of
its leaf, or the leaf has to be the last, and the leaves of the range have to fit into the pool. -/
theorem rangeRight_iff (hx : Covers s.core l lo x) (hfx : Finds find lo x s)
    (hy : Covers s.core l hi y) (hfy : Finds find hi y s) (hle : lo ≤ hi) :
    RangeRight s l find lo hi ↔
      (x = s.core.hdr.lastLeaf ∨ ∃ e ∈ s.core.cont x, lo ≤ e.1)
      ∧ (y = s.core.hdr.lastLeaf ∨ ∃ e ∈ s.core.cont y, hi < e.1)
      ∧ s.store.Room (leavesWithin s.core l lo hi) := by
  have hlower := lower_cursor_iff hl hx hfx
  have hupper := upper_cursor_iff hl hy hfy
  have hscan := range_scan_iff hl hx hfx hy hfy hle
  constructor
  · intro hr
    have hlow := hlower.mp hr.lower
    have hup := hupper.mp hr.upper
    exact ⟨hlow, hup, (hscan hlow hup).mp hr.scan⟩
  · rintro ⟨hlow, hup, hroom⟩
    exact ⟨(hscan hlow hup).mpr hroom, hlower.mpr hlow, hupper.mpr hup⟩

end

/-- The index of two leaves, on a pool with that many frames, none of them pinned. -/
def openedTwo (frames : Nat) : IxIndexHandle Nat :=
  ⟨sampleTwo.hdr, ⟨sampleTwo.pages, [], sampleTwo.nextPageNo, some frames⟩, [], []⟩

theorem openedTwo_leaves (frames : Nat) : LeafList (openedTwo frames).core [2, 3] :=
  sampleTwo_wellFormed.leafList

/-- With two frames the two leaves are scanned. -/
theorem fullRight_iff_openedTwo : FullRight (openedTwo 2) [2, 3] :=
  (fullRight_iff (openedTwo_leaves 2)).mpr fun n hn => .inl (by cases hn; decide)

/-- **With one frame** the scan does not get to the second leaf. -/
theorem openedTwo_not_fullRight : LeafList (openedTwo 1).core [2, 3]
    ∧ ¬ FullRight (openedTwo 1) [2, 3] := by
  refine ⟨openedTwo_leaves 1, fun hf => ?_⟩
  have hlost : ∃ t, (full 6).run (openedTwo 1) = .error .undefinedBehaviour t := ⟨_, rfl⟩
  obtain ⟨t, ht⟩ := hlost
  obtain ⟨u, hu, _⟩ := hf.scan 6 (by decide)
  exact absurd (ht.symm.trans hu) (by simp)

/-- A search for the leaves of `sampleTwo` that finds the right one. -/
def findTwo (key : Nat) : IxM Nat Int := IxIndexHandle.fetchNode (if key < 3 then 2 else 3)

theorem finds_first {k frames : Nat} (hk : k < 3) :
    Finds findTwo k 2 (openedTwo (frames + 1)) := by
  intro t ht
  have hr : ¬ t.store.Refuses 2 := by
    rw [ht.2]
    exact fun h => absurd h.1 (by simp [PageStore.exhausted, openedTwo])
  refine ⟨t.pinned 2, ?_, rfl, rfl⟩
  unfold findTwo
  rw [if_pos hk]
  exact run_fetchNode_some (n := sampleTwo.node 2) hr (by rw [ht.2]; rfl)

theorem covers_first {k frames : Nat} (hk : k < 3) :
    Covers (openedTwo frames).core [2, 3] k 2 := by
  refine ⟨[], [3], rfl, ?_, .inr rfl⟩
  intro w hw
  obtain rfl := List.mem_singleton.mp hw
  rintro ⟨e, he, hle⟩
  have hfirst : some ((3 : Nat), (⟨2, 0⟩ : Rid)) = some e := he
  obtain rfl := Option.some.inj hfirst
  exact absurd hle (not_le.mpr hk)

/-- The scan of the key 1 is exact with one frame. -/
theorem rangeRight_iff_openedTwo : RangeRight (openedTwo 1) [2, 3] findTwo 1 1 :=
  (rangeRight_iff (openedTwo_leaves 1) (covers_first (by decide)) (finds_first (by decide))
    (covers_first (by decide)) (finds_first (by decide)) (Nat.le_refl 1)).mpr
    ⟨.inr ⟨(1, ⟨1, 0⟩), by decide, by decide⟩, .inr ⟨(2, ⟨1, 1⟩), by decide, by decide⟩,
      fun n hn => .inl (by cases hn; decide)⟩

/-- In the leaves `1 2` and `3 4 5` the scan over `[1, 2]` does not stop behind 2, however many
frames there are. -/
theorem openedTwo_not_rangeRight : LeafList (openedTwo 8).core [2, 3]
    ∧ Covers (openedTwo 8).core [2, 3] 2 2 ∧ ¬ RangeRight (openedTwo 8) [2, 3] findTwo 1 2 := by
  refine ⟨openedTwo_leaves 8, covers_first (by decide), fun hr => ?_⟩
  have hup := (upper_cursor_iff (openedTwo_leaves 8) (covers_first (by decide))
    (finds_first (by decide))).mp hr.upper
  exact absurd hup (by decide)

end IxScan

end Rucbase
