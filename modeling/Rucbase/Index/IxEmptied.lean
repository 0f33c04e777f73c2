import Rucbase.Index.IxPins
import Rucbase.Index.IxRuns
import Rucbase.Index.IxScan

/-!
# An emptied index

The deletion of the last key goes through `AdjustRoot`, which sets `root_page` to no page. From
then on every call raises, since it starts by fetching the root. So an index from which all keys
were deleted is as good as a new one only if none was inserted.
-/

namespace Rucbase

open Lib

namespace IxIndexHandle

variable {κ : Type} [Inhabited κ]

/-! ## No page has a negative number -/

/-- Pinned pages exist, and no page has a negative number. -/
def Placed (s : IxIndexHandle κ) : Prop :=
  (∀ p ∈ s.store.pins, (s.store.pages p).isSome) ∧ ∀ p, (s.store.pages p).isSome → 0 ≤ p

theorem robust_placed : Robust (κ := κ) Placed := by
  refine ⟨fun _ _ h => h, ?_, ?_, ?_, ?_⟩
  · -- writing a page that is there leaves the same pages there
    rintro s no n hno ⟨hpins, hpos⟩
    have hpages : ∀ p, ((s.store.setPage no n).pages p).isSome ↔ (s.store.pages p).isSome := by
      intro p
      by_cases hp : p = no
      · subst hp
        rw [hpins p hno]
        exact ⟨fun _ => rfl, fun _ => congrArg _ (Function.update_self ..)⟩
      · rw [show (s.store.setPage no n).pages p = s.store.pages p from Function.update_of_ne hp ..]
    exact ⟨fun p hp => (hpages p).mpr (hpins p hp), fun p hp => hpos p ((hpages p).mp hp)⟩
  · rintro s no t hfetch ⟨hpins, hpos⟩
    obtain ⟨hsome, rfl⟩ := PageStore.of_fetchPage hfetch
    refine ⟨fun p hp => ?_, hpos⟩
    rcases List.mem_cons.mp hp with rfl | hp
    · exact hsome
    · exact hpins p hp
  · rintro s no t log hnew ⟨hpins, hpos⟩
    obtain ⟨rfl, rfl⟩ := PageStore.of_newPage hnew
    -- a new page is one more, and its number is a counter's
    have hpages : ∀ p, (Function.update s.store.pages (s.store.nextPageNo : Int)
        (some IxNode.blank) p).isSome ↔ p = s.store.nextPageNo ∨ (s.store.pages p).isSome := by
      intro p
      by_cases hp : p = s.store.nextPageNo
      · rw [hp, Function.update_self]
        simp
      · rw [Function.update_of_ne hp]
        simp [hp]
    refine ⟨fun p hp => (hpages p).mpr ?_, fun p hp => ?_⟩
    · rcases List.mem_cons.mp hp with rfl | hp
      · exact .inl rfl
      · exact .inr (hpins p hp)
    · rcases (hpages p).mp hp with rfl | hp
      · exact Int.natCast_nonneg _
      · exact hpos p hp
  · rintro s no log ⟨hpins, hpos⟩
    exact ⟨fun p hp => hpins p (List.mem_of_mem_erase hp), hpos⟩

end IxIndexHandle

namespace IxOp

open IxIndexHandle

variable {κ : Type} [LinearOrder κ] [Inhabited κ]

theorem uses_exec {I : IxIndexHandle κ → Prop} (hI : Robust I) {held : List Int} (fuel : Nat)
    (op : IxOp κ) : Uses I held (op.exec fuel) (fun _ => held) := by
  cases op with
  | insert k v => exact (uses_insertEntry hI fuel k v).bind fun _ => .pure rfl
  | delete k => exact (uses_deleteEntry hI fuel k).bind fun _ => .pure rfl
  | get k => exact (uses_getValue hI fuel k).bind fun _ => .pure rfl

theorem Returns.placed {op : IxOp κ} {s t : IxIndexHandle κ} {ret : IxRet}
    (h : op.Returns s ret t) (hs : Placed s) : Placed t := by
  obtain ⟨fuel, hrun⟩ := h
  exact (op.uses_exec robust_placed fuel s.store.pins s t ret (.refl ([] ++ s.store.pins)) hs hrun).2.1

/-- Without a root no call returns. -/
theorem not_returns {op : IxOp κ} {s t : IxIndexHandle κ} {ret : IxRet}
    (hroot : s.fileHdr.rootPage = ixNoPage) (hs : Placed s) (hframes : s.store.frames = none) :
    ¬ op.Returns s ret t := by
  rintro ⟨fuel, hrun⟩
  have hnone : s.store.pages ixNoPage = none := by
    cases hp : s.store.pages ixNoPage with
    | none => rfl
    | some n =>
        have := hs.2 ixNoPage (by rw [hp]; rfl)
        exact absurd this (by decide)
  have hfind : ∀ k : κ, (findLeafPage fuel k).run s = .error .unixError s := by
    intro k
    unfold findLeafPage
    rw [run_get_bind, hroot]
    refine bind_eq_error.mpr (.inl ?_)
    unfold fetchNode PageStore.fetchPage
    rw [run_get_bind, if_neg (by simp [PageStore.exhausted_none hframes]), hnone]
    rfl
  cases op with
  | insert k v =>
      obtain ⟨_, _, h, _⟩ := bind_eq_ok.mp hrun
      obtain ⟨_, _, h, _⟩ := bind_eq_ok.mp h
      rw [hfind] at h
      exact absurd h (by simp)
  | delete k =>
      obtain ⟨_, _, h, _⟩ := bind_eq_ok.mp hrun
      obtain ⟨_, _, h, _⟩ := bind_eq_ok.mp h
      rw [hfind] at h
      exact absurd h (by simp)
  | get k =>
      obtain ⟨_, _, h, _⟩ := bind_eq_ok.mp hrun
      obtain ⟨_, _, h, _⟩ := bind_eq_ok.mp h
      rw [hfind] at h
      exact absurd h (by simp)

end IxOp

/-! ## The last key -/

namespace IxCore

variable {κ : Type} [LinearOrder κ] [Inhabited κ] {c : IxCore κ} {h : Nat}
  {lay : Nat → List (κ × Int)} {k : κ} {v : Rid}

/-- A tree with at most one entry is a single leaf. -/
theorem WellFormed.height_zero (hw : WellFormed c h lay) (h1 : (c.stored lay).length ≤ 1) : h = 0 := by
  cases h with
  | zero => rfl
  | succ l =>
      exfalso
      have hroot := hw.tree.layered.root_mem
      have h2 := hw.tree.two_kids hw.sizes (Nat.lt_succ_self l) hroot
      have hne : ∀ e ∈ c.kids c.hdr.rootPage, 1 ≤ (c.under l e.2).length := fun e he =>
        List.length_pos_iff.mpr (hw.tree.under_ne_nil hw.sizes (Nat.lt_succ_self l)
          (hw.tree.layered.kid_mem (Nat.lt_succ_self l) hroot (List.mem_map_of_mem he)))
      rw [← under_root hw.tree.layered] at h1
      change ((c.kids c.hdr.rootPage).flatMap _).length ≤ 1 at h1
      match hk : c.kids c.hdr.rootPage with
      | [] | [_] =>
          rw [hk] at h2
          simp at h2
      | e₁ :: e₂ :: K =>
          rw [hk] at hne h1
          have := hne e₁ (by simp)
          have := hne e₂ (by simp)
          simp only [List.flatMap_cons, List.length_append] at h1
          omega

/-- **The deletion of the last key** takes the root away. -/
theorem WellFormed.delete_last (hw : WellFormed c h lay) (hk : c.stored lay = [(k, v)]) :
    ∃ rounds, ∀ fuel, rounds ≤ fuel → IxIndexHandle.Yields (IxIndexHandle.deleteEntry fuel k) c
      (fun a c' => a = true ∧ c'.hdr.rootPage = ixNoPage) := by
  obtain rfl := hw.height_zero (by rw [hk]; simp)
  have hroot := hw.tree.layered.root_mem
  obtain ⟨n, hn, hleaf⟩ := hw.tree.view_some (Nat.le_refl _) hroot
  have hleaf' : n.isLeaf = true := hleaf
  have hent : n.entries = [(k, v)] := by
    have := under_root hw.tree.layered
    rw [hk] at this
    rw [← this]
    exact (cont_of_leaf (view_of_pages hn) hleaf').symm
  obtain ⟨_, hsize⟩ := IxNode.entries_remove
    (by rw [hent]; exact List.pairwise_singleton _ _) (show n.entries = [] ++ _ :: [] from hent)
  obtain ⟨hfl, hfp, _, _⟩ := IxNode.remove_fields (n := n) (k := k)
  have hone : n.numKey = 1 := by
    rw [← IxNode.length_entries, hent]
    rfl
  have hpar : n.parent = ixNoPage := by
    have := hw.tree.rootPar
    rwa [par_of_view (view_of_pages hn)] at this
  have h3 := hw.sizes.1
  have hremove : ∀ fuel, 1 ≤ fuel → IxIndexHandle.Yields
      (IxIndexHandle.removeFromLeaf fuel c.hdr.rootPage k) c
        (fun a c' => a = true ∧ c'.hdr.rootPage = ixNoPage) := by
    intro fuel hfuel
    obtain ⟨fuel, rfl⟩ : ∃ d, fuel = d + 1 := ⟨fuel - 1, by omega⟩
    refine IxIndexHandle.yields_remove_then hn (by omega) ?_
    generalize n.remove k = m at *
    have hm : (c.setNode c.hdr.rootPage m).pages c.hdr.rootPage = some m := setNode_pages_self
    unfold IxIndexHandle.coalesceOrRedistribute
    refine .get_bind (fun u huat => ?_)
    have hmin : ¬ (m.numKey : Int) ≥ u.fileHdr.minSize := by
      rw [huat.fileHdr]
      show ¬ (m.numKey : Int) ≥ (c.hdr.btreeOrder + 1) / 2
      omega
    simp only [huat.node]
    rw [node_of_some hm, if_neg hmin, if_pos (hfp.trans hpar)]
    -- `AdjustRoot`, for an empty leaf
    unfold IxIndexHandle.adjustRoot
    refine IxIndexHandle.Yields.bind (Q := fun _ c' => c'.hdr.rootPage = ixNoPage) ?_ ?_
    · refine .get_bind (fun w hwat => ?_)
      simp only [hwat.node]
      rw [node_of_some hm, if_neg (by rw [hfl, hleaf']; simp), if_pos ⟨hfl.trans hleaf', by omega⟩]
      refine IxIndexHandle.yields_modifyHdr.then_do (IxIndexHandle.yields_modifyHdr.then_do ?_)
      exact .pure rfl
    · intro a c' hc'
      exact IxIndexHandle.yields_unpinPage.then_do (.pure ⟨trivial, hc'⟩)
  exact (IxIndexHandle.findsLeaf_root hn hleaf').deleteEntry ⟨1, hremove⟩

end IxCore

/-! ## Runs that delete everything -/

namespace IxWorld

open IxIndexHandle

variable {κ : Type} {order : Nat} {hdr : IxFileHdr}
  {page0 junk : IxNode κ} {w w' : IxWorld κ} {op : IxOp κ} {ret : IxRet} {k : κ} {v : Rid}
  {history : List (IxOp κ × IxRet)}

/-- The root is gone. -/
structure Emptied (s : IxIndexHandle κ) : Prop where
  root : s.fileHdr.rootPage = ixNoPage
  placed : Placed s
  frames : s.store.frames = none

/-- The index behaves like `fresh`: nothing is found, nothing is scanned, and all further
insertions and searches get the same answers. -/
structure Usable [LinearOrder κ] [Inhabited κ] (s fresh : IxIndexHandle κ) : Prop where
  get : ∀ k, ∃ t, (IxOp.get k).Returns s (.found none) t
  scan : ∃ fuel t, (IxScan.full fuel).run s = .ok [] t
  same : ∀ calls : List (IxOp κ × IxRet), (∀ l ∈ calls, ∀ k, l.1 ≠ .delete k) →
    ((∃ t, Run (fun s l t => l.1.Returns s l.2 t) s calls t)
      ↔ ∃ t, Run (fun s l t => l.1.Returns s l.2 t) fresh calls t)

theorem Emptied.not_usable [LinearOrder κ] [Inhabited κ] {s fresh : IxIndexHandle κ}
    (he : Emptied s) : ¬ Usable s fresh := by
  intro hu
  obtain ⟨t, ht⟩ := hu.get default
  exact IxOp.not_returns he.root he.placed he.frames ht

/-- Some key was inserted. -/
def Filled (history : List (IxOp κ × IxRet)) : Prop := ∃ l ∈ history, ∃ k v, l.1 = .insert k v

/-- Either nothing is stored because nothing was inserted, or the last key was deleted and the
root is gone. -/
structure Tracks [LinearOrder κ] [Inhabited κ] (w : IxWorld κ) (history : List (IxOp κ × IxRet)) : Prop where
  placed : Placed w.index
  state : (Agrees w ∧ (Filled history ↔ ∃ k, w.entries k ≠ none)) ∨ (Emptied w.index ∧ Filled history)

theorem created_placed : Placed (created order hdr page0 junk).index := by
  refine ⟨fun p hp => absurd hp (by simp [created, opened]), fun p hp => ?_⟩
  by_contra hneg
  have hnone : initialPages page0 junk p = none := by
    unfold initialPages ixLeafHeaderPage ixInitRootPage
    rw [if_neg (by omega), if_neg (by omega), if_neg (by omega)]
  have hp' : (initialPages page0 junk p).isSome := hp
  rw [hnone] at hp'
  exact absurd hp' (by simp)

theorem filled_cons {l : IxOp κ × IxRet} :
    Filled (l :: history) ↔ (∃ k v, l.1 = .insert k v) ∨ Filled history := by
  unfold Filled
  simp only [List.mem_cons, exists_eq_or_imp]

variable [LinearOrder κ]

/-- The map that a sequence of calls amounts to. -/
def replayed (ops : List (IxOp κ)) (m : κ → Option Rid) : κ → Option Rid :=
  ops.foldl (fun m op => op.after m) m

theorem replayed_deletes (ds : List κ) (m : κ → Option Rid) (hk : k ∈ ds ∨ m k = none) :
    replayed (ds.map .delete) m k = none := by
  induction ds generalizing m with
  | nil => exact hk.resolve_left (by simp)
  | cons d ds ih =>
      show replayed (ds.map .delete) (Function.update m d none) k = none
      refine ih _ ?_
      by_cases hkd : k = d
      · rw [hkd, Function.update_self]
        exact .inr rfl
      · rw [Function.update_of_ne hkd]
        exact hk.imp_left (fun h => (List.mem_cons.mp h).resolve_left hkd)

theorem replayed_inserts (es : List (κ × Rid)) (m : κ → Option Rid) (hk : k ∉ es.map Prod.fst)
    (hm : m k = none) : replayed (es.map fun e => .insert e.1 e.2) m k = none := by
  induction es generalizing m with
  | nil => exact hm
  | cons e es ih =>
      rw [List.map_cons, List.mem_cons, not_or] at hk
      show replayed (es.map fun e => .insert e.1 e.2) ((IxOp.insert e.1 e.2).after m) k = none
      refine ih _ hk.2 ?_
      cases he : m e.1 with
      | some v => rw [IxOp.after_insert_some he, hm]
      | none => rw [IxOp.after_insert_none he, Function.update_of_ne hk.1, hm]

variable [Inhabited κ]

/-- A deletion that is not spared empties the index. -/
theorem Agrees.delete_last (ha : Agrees w) (hk : w.entries k = some v)
    (honly : ∀ k', k' ≠ k → w.entries k' = none) :
    ∃ ret t, (IxOp.delete k).Returns w.index ret t ∧ t.fileHdr.rootPage = ixNoPage
      ∧ t.store.frames = none := by
  obtain ⟨h, lay, hw, hmap⟩ := ha.mirrors
  have hstored : w.index.core.stored lay = [(k, v)] := by
    have hmem := (hmap k v).mpr hk
    have hall : ∀ e ∈ w.index.core.stored lay, e = (k, v) := by
      rintro ⟨k', v'⟩ he
      have hv' := (hmap k' v').mp he
      by_cases hkk : k' = k
      · subst hkk
        rw [hk, Option.some.injEq] at hv'
        rw [hv']
      · rw [honly k' hkk] at hv'
        exact absurd hv' (by simp)
    have hsorted := hw.sorted
    revert hmem hall hsorted
    generalize w.index.core.stored lay = S
    intro hmem hall hsorted
    match S with
    | [] => exact absurd hmem (by simp)
    | [e] => rw [hall e (by simp)]
    | e :: f :: S =>
        have h1 := hall e (by simp)
        have h2 := hall f (by simp)
        have := (List.pairwise_cons.mp hsorted).1 f (by simp)
        rw [h1, h2] at this
        exact absurd this (lt_irrefl _)
  obtain ⟨rounds, hrun⟩ := hw.delete_last hstored
  obtain ⟨a, t, c', hok, ht, ⟨_, hroot⟩, _⟩ := hrun rounds (Nat.le_refl _) w.index ⟨rfl, ha.frames⟩
  refine ⟨.flag a, t, ⟨rounds, ?_⟩, ?_, ht.2⟩
  · exact (bind_ok hok).trans rfl
  · rw [← ht.1] at hroot
    exact hroot

theorem Tracks.step (ht : Tracks w history) (hstep : Step OnLeft w (op, ret) w') :
    Tracks w' ((op, ret) :: history) := by
  obtain ⟨hleft, hreturns, hentries⟩ := hstep
  refine ⟨hreturns.placed ht.placed, ?_⟩
  rcases ht.state with ⟨ha, hfill⟩ | ⟨he, _⟩
  · -- while a key is left, the operation keeps to the map
    by_cases hspared : Spared w op
    · refine .inl ⟨ha.step ⟨⟨hspared, hleft⟩, hreturns, hentries⟩, ?_⟩
      rw [filled_cons, hentries, hfill]
      cases op with
      | insert k v =>
          refine ⟨fun _ => ⟨k, ?_⟩, fun _ => .inl ⟨k, v, rfl⟩⟩
          cases hk : w.entries k with
          | some v' => rw [IxOp.after_insert_some hk, hk]; simp
          | none => rw [IxOp.after_insert_none hk, Function.update_self]; simp
      | get k =>
          refine ⟨fun h => ?_, .inr⟩
          exact h.resolve_left (fun ⟨_, _, hop⟩ => nomatch hop)
      | delete k =>
          rw [IxOp.after_delete]
          refine ⟨fun h => ?_, fun ⟨k', hk'⟩ => .inr ⟨k', ?_⟩⟩
          · obtain ⟨k₀, hk₀⟩ := h.resolve_left (fun ⟨_, _, hop⟩ => nomatch hop)
            rcases hspared with hnone | ⟨k', hne, hk'⟩
            · have hne : k₀ ≠ k := by
                rintro rfl
                exact hk₀ hnone
              exact ⟨k₀, by rwa [Function.update_of_ne hne]⟩
            · exact ⟨k', by rwa [Function.update_of_ne hne]⟩
          · intro hnone
            refine hk' ?_
            by_cases hkk : k' = k
            · rw [hkk, Function.update_self]
            · rw [Function.update_of_ne hkk, hnone]
    · -- the last key goes
      cases op with
      | insert k v => exact absurd trivial hspared
      | get k => exact absurd trivial hspared
      | delete k =>
          have hboth := not_or.mp hspared
          obtain ⟨v, hv⟩ := Option.ne_none_iff_exists'.mp hboth.1
          have honly : ∀ k', k' ≠ k → w.entries k' = none := by
            intro k' hne
            by_contra hk'
            exact hboth.2 ⟨k', hne, hk'⟩
          obtain ⟨ret', t, hreturns', hroot, hframes⟩ := ha.delete_last hv honly
          obtain ⟨_, rfl⟩ := hreturns'.unique hreturns
          refine .inr ⟨⟨hroot, hreturns.placed ht.placed, hframes⟩, ?_⟩
          exact filled_cons.mpr (.inr (hfill.mpr ⟨k, hboth.1⟩))
  · exact absurd hreturns (IxOp.not_returns he.root he.placed he.frames)

theorem created_tracks (horder : 3 ≤ order) : Tracks (created order hdr page0 junk) [] := by
  refine ⟨created_placed, .inl ⟨created_agrees horder, ?_⟩⟩
  simp [Filled, created]

/-- A new index is as good as a new index. -/
theorem created_usable (horder : 3 ≤ order) : Usable (created order hdr page0 junk).index
    (created order hdr page0 junk).index := by
  refine ⟨fun k => ?_, ⟨1, _, rfl⟩, fun _ _ => Iff.rfl⟩
  have hleft : OnLeft (created order hdr page0 junk) (.get k) := .of_leaf rfl
  obtain ⟨ret, t, hreturns, hright, _⟩ := (created_agrees horder).exec
    (show Spared _ (.get k) from trivial) hleft
  rw [show ret = .found none from hright] at hreturns
  exact ⟨t, hreturns⟩

theorem entries_of_run {P : IxWorld κ → IxOp κ → Prop} {w₀ : IxWorld κ}
    (hrun : Run (Step P) w₀ history w) :
    w.entries = replayed (history.map Prod.fst).reverse w₀.entries := by
  induction hrun with
  | nil => rfl
  | @step history w w' l _ hstep ih =>
      rw [List.map_cons, List.reverse_cons, replayed, List.foldl_append, hstep.2.2, ih]
      rfl

/-- What a run on the left edge comes to. -/
theorem tracks_of_run (horder : 3 ≤ order)
    (hrun : Run (Step OnLeft) (created order hdr page0 junk) history w) : Tracks w history :=
  hrun.invariant_history (created_tracks horder)
    (fun _ _ _ _ h hstep => h.step hstep)

/-- **An index that was emptied is usable only if it was never filled.** The entries `es` are
inserted, and their keys deleted in the order `ds`, in a run whose searches each stay where
`FindLeafPage` finds the right leaf (`OnLeft`); with `es` empty there are no searches. -/
theorem emptied_usable_iff (horder : 3 ≤ order) {es : List (κ × Rid)} {ds : List κ}
    (hds : ∀ k, k ∈ ds ↔ k ∈ es.map Prod.fst)
    (hrun : Run (Step OnLeft) (created order hdr page0 junk) history w)
    (hops : (history.map Prod.fst).reverse
      = es.map (fun e => IxOp.insert e.1 e.2) ++ ds.map IxOp.delete) :
    Usable w.index (created order hdr page0 junk).index ↔ es = [] := by
  have ht := tracks_of_run horder hrun
  constructor
  · intro husable
    have hnone : ∀ k, w.entries k = none := by
      intro k
      rw [entries_of_run hrun, hops, replayed, List.foldl_append]
      refine replayed_deletes ds _ ?_
      by_cases hk : k ∈ ds
      · exact .inl hk
      · exact .inr (replayed_inserts es _ (mt (hds k).mpr hk) rfl)
    rcases ht.state with ⟨_, hfill⟩ | ⟨he, _⟩
    · cases es with
      | nil => rfl
      | cons e es =>
          have hmem : IxOp.insert e.1 e.2 ∈ (history.map Prod.fst).reverse := by
            rw [hops]
            simp
          obtain ⟨l, hl, hle⟩ := List.mem_map.mp (List.mem_reverse.mp hmem)
          obtain ⟨k, hk⟩ := hfill.mp ⟨l, hl, e.1, e.2, hle⟩
          exact absurd (hnone k) hk
    · exact absurd husable he.not_usable
  · rintro rfl
    have hnil : ds = [] := List.eq_nil_iff_forall_not_mem.mpr (fun k hk => by simpa using (hds k).mp hk)
    rw [hnil, List.map_nil, List.map_nil, List.append_nil, List.reverse_eq_nil_iff,
      List.map_eq_nil_iff] at hops
    subst hops
    cases hrun
    exact created_usable horder

/-- The key 1, inserted into a new index and deleted again. -/
theorem small_emptied : ∃ history w, Run (Step OnLeft) small history w
    ∧ (history.map Prod.fst).reverse = [.insert 1 ⟨1, 1⟩, .delete 1]
    ∧ w.index.fileHdr.rootPage = ixNoPage := by
  have h1 : Step OnLeft (grown []) (.insert 1 ⟨1, 1⟩, .flag true) (grown [1]) :=
    grown_step (by decide +kernel) (.of_leaf (by decide +kernel))
  have h2 : ((grown [1]).step 4 (.delete 1)).map (fun r => (r.1, r.2.index.fileHdr.rootPage))
      = some (.flag true, ixNoPage) := by decide +kernel
  obtain ⟨⟨ret, w⟩, hstep, hret⟩ := Option.map_eq_some_iff.mp h2
  rw [Prod.mk.injEq] at hret
  refine ⟨_, w, .step (.step .nil h1) (Step.of_step hstep (.of_leaf (by decide +kernel))), rfl, hret.2⟩

theorem emptied_usable_iff_small : ∃ history w, Run (Step OnLeft) small history w
    ∧ (Usable w.index small.index ↔ [((1 : Nat), (⟨1, 1⟩ : Rid))] = []) := by
  obtain ⟨history, w, hrun, hops, _⟩ := small_emptied
  refine ⟨history, w, hrun, ?_⟩
  exact emptied_usable_iff (by decide) (fun k => by simp) hrun
    (show _ = [((1 : Nat), (⟨1, 1⟩ : Rid))].map _ ++ [1].map IxOp.delete from hops)

/-- **One key inserted and deleted leaves an index that is not usable.** -/
theorem small_not_usable : ∃ history w, Run (Step OnLeft) small history w
    ∧ (history.map Prod.fst).reverse = [.insert 1 ⟨1, 1⟩, .delete 1]
    ∧ ¬ Usable w.index small.index := by
  obtain ⟨history, w, hrun, hops, hroot⟩ := small_emptied
  refine ⟨history, w, hrun, hops, ?_⟩
  rcases (tracks_of_run (by decide) hrun).state with ⟨ha, _⟩ | ⟨he, _⟩
  · -- an index with a tree has a root
    obtain ⟨h, lay, hw, _⟩ := ha.mirrors
    have := (hw.tree.range h (Nat.le_refl _) _ hw.tree.layered.root_mem).1
    rw [show w.index.core.hdr.rootPage = ixNoPage from hroot] at this
    exact absurd this (by decide)
  · exact he.not_usable

end IxWorld

end Rucbase
