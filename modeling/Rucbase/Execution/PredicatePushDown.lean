import Rucbase.Execution.SeqScan

/-!
# Predicate push-down

`pop_conds` and the loop of `select_from` that calls it with longer and longer prefixes of the table
list, `execution/execution_manager.cpp`. What a step leaves are the conditions that the prefix does
not cover, in order; so step `i` pops those that are covered from table `i` on, which is the table
the scan of step `i` reads.
-/

namespace Rucbase

open Lib

/-- The columns a condition mentions. -/
def Condition.cols (cond : Condition) : List TabCol :=
  match cond.rhs with
  | .val _ => [cond.lhsCol]
  | .col c => [cond.lhsCol, c]

/-- The tables a condition mentions. -/
def Condition.tables (cond : Condition) : List String := cond.cols.map TabCol.tabName

/-- The test of `pop_conds`. -/
def Condition.solvable (tabNames : List String) (cond : Condition) : Bool :=
  tabNames.contains cond.lhsCol.tabName
    && match cond.rhs with
      | .val _ => true
      | .col c => tabNames.contains c.tabName

/-- `pop_conds`: what it returns, and what it leaves. -/
def popConds (tabNames : List String) : List Condition → List Condition × List Condition
  | [] => ([], [])
  | cond :: conds =>
      let r := popConds tabNames conds
      if cond.solvable tabNames then (cond :: r.1, r.2) else (r.1, cond :: r.2)

/-- The loop of `select_from`, for the values of `i` in a list: what each step pops, and what is left
at the end. -/
def popLoop (tabNames : List String) :
    List Nat → List Condition → List (List Condition) × List Condition
  | [], conds => ([], conds)
  | i :: steps, conds =>
      let curr := popConds (tabNames.take (i + 1)) conds
      let later := popLoop tabNames steps curr.2
      (curr.1 :: later.1, later.2)

/-- The whole loop. -/
def selectLoop (tabNames : List String) (conds : List Condition) :
    List (List Condition) × List Condition :=
  popLoop tabNames (List.range tabNames.length) conds

/-- Step `i` is the first whose prefix has all tables of the condition. -/
def FirstCovers (tabNames : List String) (i : Nat) (cond : Condition) : Prop :=
  (∀ t ∈ cond.tables, t ∈ tabNames.take (i + 1))
    ∧ ∀ j, j < i → ∃ t ∈ cond.tables, t ∉ tabNames.take (j + 1)

instance (tabNames : List String) (i : Nat) (cond : Condition) :
    Decidable (FirstCovers tabNames i cond) :=
  inferInstanceAs (Decidable (_ ∧ _))

variable {tabNames : List String} {conds : List Condition} {cond : Condition} {i j k : Nat}

/-! ## One step -/

theorem solvable_iff : cond.solvable tabNames ↔ ∀ t ∈ cond.tables, t ∈ tabNames := by
  unfold Condition.solvable Condition.tables Condition.cols
  cases cond.rhs <;> simp

/-- **`pop_conds` divides the conditions**, and keeps both parts in order. -/
theorem popConds_eq : popConds tabNames conds
    = (conds.filter (·.solvable tabNames), conds.filter fun c => !c.solvable tabNames) := by
  induction conds with
  | nil => rfl
  | cons cond conds ih =>
      rw [popConds, ih]
      cases h : cond.solvable tabNames with
      | true => simp [h]
      | false => simp [h]

/-- A longer prefix covers more. -/
theorem solvable_mono (hij : i ≤ j) (h : cond.solvable (tabNames.take i)) :
    cond.solvable (tabNames.take j) :=
  solvable_iff.mpr fun t ht =>
    (List.take_prefix_take_left hij).subset (solvable_iff.mp h t ht)

/-- What step `i` pops of what the steps before it have left. -/
theorem firstCovers_iff : FirstCovers tabNames i cond
    ↔ cond.solvable (tabNames.take (i + 1)) = true ∧ cond.solvable (tabNames.take i) = false := by
  constructor
  · rintro ⟨hall, hfirst⟩
    refine ⟨solvable_iff.mpr hall, ?_⟩
    rw [Bool.eq_false_iff]
    intro h
    cases i with
    | zero =>
        have := solvable_iff.mp h cond.lhsCol.tabName (by
          unfold Condition.tables Condition.cols
          cases cond.rhs <;> simp)
        simp at this
    | succ i =>
        obtain ⟨t, ht, hno⟩ := hfirst i (by omega)
        exact hno (solvable_iff.mp h t ht)
  · rintro ⟨hall, hno⟩
    refine ⟨solvable_iff.mp hall, fun j hj => ?_⟩
    by_contra hcov
    push Not at hcov
    rw [solvable_mono (show j + 1 ≤ i by omega) (solvable_iff.mpr hcov)] at hno
    exact absurd hno (by simp)

/-! ## The loop -/

/-- **The steps from `i` on**, when those before have left what their prefix does not cover. -/
theorem popLoop_range' (i k : Nat) : popLoop tabNames (List.range' i k)
      (conds.filter fun c => !c.solvable (tabNames.take i))
    = ((List.range' i k).map fun j => conds.filter (FirstCovers tabNames j),
      conds.filter fun c => !c.solvable (tabNames.take (i + k))) := by
  induction k generalizing i with
  | zero => rfl
  | succ k ih =>
      have hpop : (conds.filter fun c => !c.solvable (tabNames.take i)).filter
          (·.solvable (tabNames.take (i + 1))) = conds.filter (FirstCovers tabNames i) := by
        rw [List.filter_filter]
        refine List.filter_congr fun c _ => ?_
        rw [Bool.eq_iff_iff, decide_eq_true_iff, firstCovers_iff]
        simp
      have hleft : ((conds.filter fun c => !c.solvable (tabNames.take i)).filter
          fun c => !c.solvable (tabNames.take (i + 1)))
            = conds.filter fun c => !c.solvable (tabNames.take (i + 1)) := by
        rw [List.filter_filter]
        refine List.filter_congr fun c _ => ?_
        cases h : c.solvable (tabNames.take i) with
        | false => simp
        | true => simp [solvable_mono (Nat.le_succ i) h]
      rw [List.range'_succ, popLoop, popConds_eq, hpop, hleft]
      dsimp only
      rw [ih, List.map_cons, show i + 1 + k = i + (k + 1) by omega]

theorem popLoop_range : popLoop tabNames (List.range k) conds
    = ((List.range k).map fun j => conds.filter (FirstCovers tabNames j),
      conds.filter fun c => !c.solvable (tabNames.take k)) := by
  have hall : (conds.filter fun c => !c.solvable (tabNames.take 0)) = conds :=
    List.filter_eq_self.mpr fun c _ => by simp [Condition.solvable]
  rw [List.range_eq_range']
  conv_lhs => rw [← hall]
  rw [popLoop_range' 0 k, ← List.range_eq_range', Nat.zero_add]

/-! ## The scan that gets the conditions -/

variable {t : String}

/-- A condition that table `i` completes mentions table `i`. -/
theorem FirstCovers.mentions (h : FirstCovers tabNames i cond) (ht : tabNames[i]? = some t) :
    t ∈ cond.tables := by
  obtain ⟨hall, hno⟩ := firstCovers_iff.mp h
  by_contra hnot
  rw [← Bool.not_eq_true, solvable_iff] at hno
  refine hno fun t' ht' => ?_
  have hin := solvable_iff.mp hall t' ht'
  rw [List.take_add_one, ht, Option.toList_some, List.mem_append, List.mem_singleton] at hin
  rcases hin with hin | rfl
  · exact hin
  · exact absurd ht' hnot

/-- The constructor can turn a condition that mentions its table, and gives one with the same
columns. -/
theorem swapSides_returns (h : t ∈ cond.tables) :
    ∃ c, SeqScanExecutor.swapSides t cond = .ok c ∧ c.lhsCol.tabName = t
      ∧ ∀ col ∈ c.cols, col ∈ cond.cols := by
  unfold SeqScanExecutor.swapSides
  by_cases hl : cond.lhsCol.tabName = t
  · exact ⟨cond, if_pos hl, hl, fun _ h => h⟩
  · rw [if_neg hl]
    unfold Condition.tables Condition.cols at h
    cases hrhs : cond.rhs with
    | val v =>
        rw [hrhs] at h
        exact absurd (List.mem_singleton.mp h).symm hl
    | col c =>
        have hr : c.tabName = t := by
          rw [hrhs] at h
          simp only [List.map_cons, List.map_nil, List.mem_cons, List.not_mem_nil, or_false] at h
          rcases h with h | h
          · exact absurd h.symm hl
          · exact h.symm
        refine ⟨_, if_pos hr, hr, fun col hcol => ?_⟩
        unfold Condition.cols at hcol ⊢
        rw [hrhs]
        simp only [List.mem_cons, List.not_mem_nil, or_false] at hcol ⊢
        exact hcol.symm

/-- `feed` finds what it needs if the dictionary has the columns of the other tables, and then the
condition is one of the scanned table alone. -/
theorem feedCond_returns {feedDict : Std.TreeMap TabCol Value} (hl : cond.lhsCol.tabName = t)
    (hdict : ∀ col ∈ cond.cols, col.tabName ≠ t → col ∈ feedDict) :
    ∃ c, SeqScanExecutor.feedCond t feedDict cond = .ok c
      ∧ SeqScanExecutor.runtimeCond t c = true := by
  unfold SeqScanExecutor.feedCond
  cases hrhs : cond.rhs with
  | val v => exact ⟨cond, rfl, by simp [SeqScanExecutor.runtimeCond, hl, hrhs]⟩
  | col c =>
      by_cases hr : c.tabName = t
      · exact ⟨cond, if_pos hr, by simp [SeqScanExecutor.runtimeCond, hl, hr, hrhs]⟩
      · have hin : c ∈ feedDict := hdict c (by simp [Condition.cols, hrhs]) hr
        obtain ⟨v, hv⟩ := Option.isSome_iff_exists.mp (Std.TreeMap.isSome_getElem?_iff_mem.mpr hin)
        dsimp only
        rw [if_neg hr, hv]
        exact ⟨_, rfl, by simp [SeqScanExecutor.runtimeCond, hl]⟩

/-- **No assertion of the scan fails**, neither in the constructor nor behind `feed`. -/
theorem scan_accepts {sm : SmManager} {tab : TabMeta} {feedDict : Std.TreeMap TabCol Value}
    (htab : sm.db.tabs[t]? = some tab) (hcols : tab.cols ≠ []) (hopen : (sm.fhs t).isSome)
    (hmention : ∀ c ∈ conds, t ∈ c.tables)
    (hdict : ∀ c ∈ conds, ∀ col ∈ c.cols, col.tabName ≠ t → col ∈ feedDict) :
    ∃ e e', SeqScanExecutor.new sm t conds = .ok e ∧ e.feed feedDict = .ok e' := by
  obtain ⟨swapped, hswap, hswapped⟩ := mapM_returns fun c hc => swapSides_returns (hmention c hc)
  obtain ⟨e, hnew, rfl, rfl, _⟩ := SeqScanExecutor.new_ok htab hcols hopen hswap
  obtain ⟨fed, hfed, hall⟩ := mapM_returns (l := e.conds) fun c hc => by
    obtain ⟨c₀, hc₀, hl, hin⟩ := hswapped c hc
    exact feedCond_returns hl fun col hcol => hdict c₀ hc₀ col (hin col hcol)
  exact ⟨e, _, hnew, SeqScanExecutor.feed_ok hfed fun c hc => (hall c hc).elim fun _ h => h.2⟩

/-! ## Every condition at one step -/

/-- What the loop makes of a list of conditions. -/
structure PushedDown (tabNames : List String) (conds : List Condition) : Prop where
  /-- Every condition has one step. -/
  once : ∀ c ∈ conds, ∃! i, i < tabNames.length ∧ FirstCovers tabNames i c
  /-- That step pops it, among the others of that step, in order. -/
  popped : ∀ i, i < tabNames.length →
    (selectLoop tabNames conds).1[i]? = some (conds.filter (FirstCovers tabNames i))
  steps : (selectLoop tabNames conds).1.length = tabNames.length
  /-- What the steps before `i` have left are the others, in order. -/
  kept : ∀ i, (popLoop tabNames (List.range i) conds).2
    = conds.filter fun c => ∀ j, j < i → ¬ FirstCovers tabNames j c
  /-- In the end nothing is left. -/
  drained : (selectLoop tabNames conds).2 = []
  /-- The conditions of a step mention its table. -/
  mentions : ∀ (i : Nat) (t : String) (curr : List Condition), tabNames[i]? = some t →
    (selectLoop tabNames conds).1[i]? = some curr → ∀ c ∈ curr, t ∈ c.tables
  /-- The scan of the step accepts them, once it is fed the columns of the tables before it. -/
  accepted : ∀ (i : Nat) (t : String) (curr : List Condition), tabNames[i]? = some t →
    (selectLoop tabNames conds).1[i]? = some curr →
    ∀ (sm : SmManager) (tab : TabMeta), sm.db.tabs[t]? = some tab → tab.cols ≠ [] →
    (sm.fhs t).isSome → ∀ feedDict : Std.TreeMap TabCol Value,
      (∀ c ∈ curr, ∀ col ∈ c.cols, col.tabName ∈ tabNames.take i → col ∈ feedDict) →
      ∃ e e', SeqScanExecutor.new sm t curr = .ok e ∧ e.feed feedDict = .ok e'

/-- No step before `i` covers the condition if its prefix does not. -/
theorem not_solvable_iff : cond.solvable (tabNames.take i) = false
    ↔ ∀ j, j < i → ¬ FirstCovers tabNames j cond := by
  constructor
  · intro h j hj hcov
    have := solvable_mono (show j + 1 ≤ i by omega) (firstCovers_iff.mp hcov).1
    rw [h] at this
    exact absurd this (by simp)
  · intro h
    induction i with
    | zero => simp [Condition.solvable]
    | succ i ih =>
        have hbefore := ih fun j hj => h j (by omega)
        by_contra hcov
        exact h i (by omega) (firstCovers_iff.mpr ⟨by simpa using hcov, hbefore⟩)

/-- No condition is completed by two steps. -/
theorem FirstCovers.unique (hi : FirstCovers tabNames i cond) (hj : FirstCovers tabNames j cond) :
    i = j := by
  have hle : ∀ {i j}, FirstCovers tabNames i cond → FirstCovers tabNames j cond → j ≤ i := by
    intro i j hi hj
    by_contra hlt
    exact not_solvable_iff.mp (firstCovers_iff.mp hj).2 i (by omega) hi
  exact Nat.le_antisymm (hle hj hi) (hle hi hj)

/-- **Push-down assigns each condition exactly once**, at the first step whose prefix has all its
tables. -/
theorem pushed_down (htabs : ∀ c ∈ conds, ∀ t ∈ c.tables, t ∈ tabNames) :
    PushedDown tabNames conds := by
  have hloop : selectLoop tabNames conds = _ := popLoop_range
  have hpopped : ∀ i, i < tabNames.length →
      (selectLoop tabNames conds).1[i]? = some (conds.filter (FirstCovers tabNames i)) := by
    intro i hi
    rw [hloop, List.getElem?_map, List.getElem?_range hi]
    rfl
  have hcurr : ∀ {i t curr}, tabNames[i]? = some t →
      (selectLoop tabNames conds).1[i]? = some curr →
      ∀ c ∈ curr, c ∈ conds ∧ FirstCovers tabNames i c := by
    intro i t curr ht hi c hc
    rw [hpopped i (List.getElem?_eq_some_iff.mp ht).1, Option.some.injEq] at hi
    rw [← hi, List.mem_filter, decide_eq_true_iff] at hc
    exact hc
  constructor
  case popped => exact hpopped
  case steps => rw [hloop, List.length_map, List.length_range]
  case once =>
    intro c hc
    by_contra hno
    -- a condition no prefix covers first is covered by none, and the last prefix is all tables
    have hcov : c.solvable (tabNames.take tabNames.length) = false := by
      refine not_solvable_iff.mpr fun j hj hfirst => hno ⟨j, ⟨hj, hfirst⟩, ?_⟩
      exact fun k hk => hk.2.unique hfirst
    rw [List.take_length, solvable_iff.mpr (htabs c hc)] at hcov
    exact absurd hcov (by simp)
  case kept =>
    intro i
    rw [popLoop_range]
    refine List.filter_congr fun c _ => ?_
    rw [Bool.eq_iff_iff, decide_eq_true_iff, ← not_solvable_iff]
    simp
  case drained =>
    rw [hloop, List.filter_eq_nil_iff]
    intro c hc
    rw [List.take_length]
    simpa using solvable_iff.mpr (htabs c hc)
  case mentions =>
    intro i t curr ht hi c hc
    exact (hcurr ht hi c hc).2.mentions ht
  case accepted =>
    intro i t curr ht hi sm tab htab hcols hopen feedDict hdict
    refine scan_accepts htab hcols hopen (fun c hc => (hcurr ht hi c hc).2.mentions ht) ?_
    intro c hc col hcol hne
    refine hdict c hc col hcol ?_
    have hin := (hcurr ht hi c hc).2.1 col.tabName (List.mem_map_of_mem hcol)
    rw [List.take_add_one, ht, Option.toList_some, List.mem_append, List.mem_singleton] at hin
    exact hin.resolve_right hne

theorem pushed_down_two_tables : PushedDown ["a", "b"]
    [⟨⟨"a", "x"⟩, .eq, .col ⟨"b", "y"⟩⟩, ⟨⟨"a", "z"⟩, .lt, .val (.setInt 3)⟩] :=
  pushed_down (by decide)

end Rucbase
