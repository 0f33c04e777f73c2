import Rucbase.System.OpenDb

/-!
# What `open_db` opens

Table by table and column by column, each file under the descriptor that `open` returns for it. The
names of indexes tell tables and columns apart, so the assertion on `ihs_` holds, whatever the catalog
says; and what was read keeps every table under its own name.
-/

namespace Rucbase.Lib

/-- What every item keeps, the whole loop keeps. -/
theorem times_invariant {α β : Type} {item : Reader β} {f : α → β → α} {I : α → Prop} {P : β → Prop}
    (hitem : ∀ is, P (item.run is).1) (hf : ∀ a b, I a → P b → I (f a b)) :
    ∀ (n : Nat) (a : α) (is : IStream), I a → I ((times item f n a).run is).1
  | 0, _, _, ha => ha
  | n + 1, _, is, ha => times_invariant hitem hf n _ _ (hf _ _ ha (hitem is))

end Rucbase.Lib

namespace Rucbase

open Lib BufferPoolManager

/-! ## What was read -/

variable {u : Indeterminate}

theorem isInt32_readInt {v : Int} (hv : IsInt32 v) (is : IStream) :
    IsInt32 ((readInt v).run is).1 := by
  have hconvert : ∀ o, IsInt32 (toInt32 o).1 := by
    intro o
    cases o with
    | none => decide
    | some p =>
        unfold toInt32
        dsimp only
        generalize (if p.1 = true then -(p.2 : Int) else p.2) = w
        split
        · decide
        · split
          · decide
          · exact ⟨by omega, by omega⟩
  unfold readInt readNumber
  show IsInt32 (if _ then _ else _ : Int × IStream).1
  split
  · exact hv
  · split
    · exact hv
    · exact hconvert _

/-- Every table is under its own name, and the lengths of columns are `int`s. -/
def Keyed (tabs : Std.TreeMap String TabMeta) : Prop :=
  ∀ (t : String) (tab : TabMeta), tabs[t]? = some tab →
    tab.name = t ∧ ∀ col ∈ tab.cols, IsInt32 col.len

theorem lens_read (hint : IsInt32 u.int) (is : IStream) :
    ∀ col ∈ ((TabMeta.read u ⟨"", []⟩).run is).1.cols, IsInt32 col.len := by
  have hcol : ∀ is, IsInt32 (((ColMeta.local u).read u).run is).1.len := fun is =>
    isInt32_readInt hint _
  have hnone : ∀ col ∈ ([] : List ColMeta), IsInt32 col.len := by simp
  refine times_invariant (I := fun cols : List ColMeta => ∀ col ∈ cols, IsInt32 col.len)
    (P := fun col : ColMeta => IsInt32 col.len) hcol (fun cols col hcols hlen => ?_) _ _ _ hnone
  intro c hc
  rcases List.mem_append.mp hc with hc | hc
  · exact hcols c hc
  · obtain rfl := List.mem_singleton.mp hc
    exact hlen

theorem keyed_read (hint : IsInt32 u.int) {db : DbMeta} (hdb : Keyed db.tabs) (is : IStream) :
    Keyed ((DbMeta.read u db).run is).1.tabs := by
  refine times_invariant (I := Keyed) (P := fun tab : TabMeta => ∀ col ∈ tab.cols, IsInt32 col.len)
    (lens_read hint) (fun tabs tab htabs hlens => ?_) _ _ _ hdb
  intro t tab' htab'
  rw [Std.TreeMap.getElem?_insert] at htab'
  split at htab'
  · rename_i hname
    obtain rfl := Option.some.inj htab'
    exact ⟨Std.LawfulEqOrd.eq_of_compare hname, hlens⟩
  · exact htabs t tab' htab'

/-! ## The loops -/

namespace SmManager

variable {s s' : SmManager} {fdOf : String → Int} {P Q : String → Prop} {tab : TabMeta}
  {e : RedBaseError}

/-- On the way: the tables `P` and the indexes `Q` are open, each file under its descriptor. -/
structure Opening (fdOf : String → Int) (P Q : String → Prop) (s : SmManager) : Prop where
  fhs : ∀ t, (s.fhs t).isSome ↔ P t
  ihs : ∀ n, (s.ihs n).isSome ↔ Q n
  handles : HandlesOpen s
  fds : ∀ fd path, s.pool.diskManager.openFds fd = some path → fd = fdOf path

/-- What `open_db` can run into. -/
def OpenDbError (e : RedBaseError) : Prop :=
  e = .unixError ∨ ∃ path, e = .fileNotFoundError path ∨ e = .fileExistsError path

theorem OpenRefused.openDbError {d : DiskManager} {path : String}
    (h : e = .unixError ∨ OpenRefused d path e) : OpenDbError e := by
  rcases h with h | ⟨h, _⟩ | ⟨h, _⟩
  · exact .inl h
  · exact .inr ⟨path, .inl h⟩
  · exact .inr ⟨path, .inr h⟩

/-- The descriptor of a file that is not open is free. -/
theorem Opening.free (h : Opening fdOf P Q s) (hinj : Function.Injective fdOf) {path : String}
    (hclosed : s.pool.diskManager.path2fd path = none) :
    s.pool.diskManager.openFds (fdOf path) = none := by
  cases hopen : s.pool.diskManager.openFds (fdOf path) with
  | none => rfl
  | some path' =>
      obtain rfl := hinj (h.fds _ _ hopen)
      rw [(h.handles.disk.path2fd path _).mpr hopen] at hclosed
      cases hclosed

theorem Opening.opened {pool : BufferPoolManager} {path : String} (h : Opening fdOf P Q s)
    (hinj : Function.Injective fdOf)
    (ho : Opened s.pool.diskManager path (fdOf path) pool.diskManager) :
    HandlesOpen { s with pool := pool }
      ∧ (∀ fd p, pool.diskManager.openFds fd = some p → fd = fdOf p)
      ∧ pool.diskManager.openFds (fdOf path) = some path ∧ s.fhs path = none ∧ s.ihs path = none := by
  refine ⟨h.handles.more ho.disk (staysOpen_update (h.free hinj ho.closed) ho.openFds),
    fun fd p hp => ?_, by rw [ho.openFds, Function.update_self], h.handles.absent ho.closed⟩
  rw [ho.openFds, Function.update_apply] at hp
  split at hp
  · rename_i hfd
    rw [hfd, Option.some.inj hp]
  · exact h.fds fd p hp

/-- One column: its index is opened if it is marked. -/
theorem openIndexOf_outcome (h : Opening fdOf P Q s) (hinj : Function.Injective fdOf) (col : ColMeta)
    (i : Nat) (hnew : ¬ Q (IxManager.getIndexName tab.name i)) :
    Ends s (openIndexOf fdOf tab col i) (fun _ s' => s'.db = s.db
        ∧ Opening fdOf P (fun n => Q n ∨ col.index = true ∧ n = IxManager.getIndexName tab.name i) s')
      fun e _ => OpenDbError e := by
  unfold openIndexOf
  by_cases hindex : col.index = true
  · have hfree : s.ihs (IxManager.getIndexName tab.name i) = none := by
      have := h.ihs (IxManager.getIndexName tab.name i)
      cases hih : s.ihs (IxManager.getIndexName tab.name i) with
      | none => rfl
      | some ih =>
          rw [hih] at this
          exact absurd (this.mp rfl) hnew
    rw [if_pos hindex]
    refine .of_run (run_get_bind ..) ?_
    rw [hfree, if_neg (by simp)]
    refine (ends_onPool (openIndex_outcome h.handles.disk (h.free hinj))).bind ?_
      fun e _ ⟨_, _, he⟩ => OpenRefused.openDbError he
    rintro hdr _ ⟨pool, rfl, ho⟩
    obtain ⟨hh, hfds, hself, hfh, _⟩ := h.opened hinj ho
    refine .of_ok rfl ?_
    dsimp only
    rw [hfree, Option.getD_none]
    refine ⟨rfl, h.fhs, fun n => ?_, hh.withIh hself hfh, hfds⟩
    dsimp only
    rw [Function.update_apply]
    split
    · rename_i hn
      exact ⟨fun _ => .inr ⟨hindex, hn⟩, fun _ => rfl⟩
    · rename_i hn
      rw [h.ihs]
      exact ⟨.inl, fun hQ => hQ.resolve_right fun hno => hn hno.2⟩
  · rw [if_neg hindex]
    refine .of_ok rfl ⟨rfl, h.fhs, fun n => ?_, h.handles, h.fds⟩
    rw [h.ihs]
    exact ⟨.inl, fun hQ => hQ.resolve_right fun hno => hindex hno.1⟩

/-- The loop over the columns. -/
theorem openIndexes_outcome (hinj : Function.Injective fdOf) :
    ∀ {cols : List (ColMeta × Nat)} {s : SmManager} {Q : String → Prop}, Opening fdOf P Q s →
      (∀ entry ∈ cols, ¬ Q (IxManager.getIndexName tab.name entry.2)) →
      (cols.map Prod.snd).Nodup →
      Ends s (openIndexes fdOf tab cols) (fun _ s' => s'.db = s.db
          ∧ Opening fdOf P (fun n => Q n ∨ ∃ entry ∈ cols, entry.1.index = true
              ∧ n = IxManager.getIndexName tab.name entry.2) s')
        fun e _ => OpenDbError e
  | [], s, Q, h, _, _ => by
      refine .of_ok rfl ⟨rfl, h.fhs, fun n => ?_, h.handles, h.fds⟩
      rw [h.ihs]
      simp
  | entry :: cols, s, Q, h, hnew, hdistinct => by
      obtain ⟨hnew₀, hnew⟩ := List.forall_mem_cons.mp hnew
      rw [List.map_cons, List.nodup_cons] at hdistinct
      -- the columns behind have other numbers
      have hnew' : ∀ entry' ∈ cols, ¬ (Q (IxManager.getIndexName tab.name entry'.2)
          ∨ entry.1.index = true
            ∧ IxManager.getIndexName tab.name entry'.2 = IxManager.getIndexName tab.name entry.2) := by
        rintro entry' hentry' (hQ | ⟨_, hname⟩)
        · exact hnew entry' hentry' hQ
        · exact hdistinct.1 ((getIndexName_inj hname).2 ▸ List.mem_map_of_mem hentry')
      unfold openIndexes
      refine (openIndexOf_outcome h hinj entry.1 entry.2 hnew₀).bind (fun _ s₁ ⟨hdb₁, hopen₁⟩ => ?_)
        fun _ _ he => he
      refine (openIndexes_outcome hinj hopen₁ hnew' hdistinct.2).imp
        (fun _ s' ⟨hdb₂, hopen₂⟩ => ⟨hdb₂.trans hdb₁, hopen₂.fhs, fun n => ?_, hopen₂.handles, hopen₂.fds⟩)
        fun _ _ he => he
      rw [hopen₂.ihs, or_assoc]
      simp only [List.mem_cons, exists_eq_or_imp]

/-- The indexes of a table. -/
def IndexIn (tab : TabMeta) (n : String) : Prop :=
  ∃ entry ∈ tab.cols.zipIdx, entry.1.index = true ∧ n = IxManager.getIndexName tab.name entry.2

/-- One table. -/
theorem openTable_outcome (h : Opening fdOf P Q s) (hinj : Function.Injective fdOf)
    (hnew : ¬ P tab.name) (hnewIx : ∀ i, ¬ Q (IxManager.getIndexName tab.name i)) :
    Ends s (openTable fdOf tab) (fun _ s' => s'.db = s.db
        ∧ Opening fdOf (fun t => P t ∨ t = tab.name) (fun n => Q n ∨ IndexIn tab n) s')
      fun e _ => OpenDbError e := by
  have hfree : s.fhs tab.name = none := by
    cases hfh : s.fhs tab.name with
    | none => rfl
    | some fh => exact absurd ((h.fhs tab.name).mp (by rw [hfh]; rfl)) hnew
  have hdistinct : (tab.cols.zipIdx.map Prod.snd).Nodup := by
    rw [List.zipIdx_map_snd]
    exact List.nodup_range'
  unfold openTable
  refine (ends_onPool (openFile_outcome h.handles.disk (h.free hinj))).bind ?_
    fun e _ ⟨_, _, he⟩ => OpenRefused.openDbError he
  rintro hdr _ ⟨pool, rfl, ho⟩
  obtain ⟨hh, hfds, hself, _, hih⟩ := h.opened hinj ho
  refine .of_run (run_modify_bind ..) ?_
  dsimp only
  rw [hfree, Option.getD_none]
  -- the handle of the table is entered
  have hentered : Opening fdOf (fun t => P t ∨ t = tab.name) Q { s with
      pool := pool
      fhs := Function.update s.fhs tab.name (some ⟨fdOf tab.name, hdr⟩) } := by
    refine ⟨fun t => ?_, h.ihs, hh.withFh hself hih, hfds⟩
    dsimp only
    rw [Function.update_apply]
    split
    · rename_i hname
      exact ⟨fun _ => .inr hname, fun _ => rfl⟩
    · rename_i hname
      rw [h.fhs]
      exact ⟨.inl, fun hP => hP.resolve_right hname⟩
  exact openIndexes_outcome hinj hentered (fun entry _ => hnewIx entry.2) hdistinct

/-- The loop over the tables. -/
theorem openTables_outcome (hinj : Function.Injective fdOf) :
    ∀ {tabs : List (String × TabMeta)} {s : SmManager} {P Q : String → Prop}, Opening fdOf P Q s →
      (∀ entry ∈ tabs, ¬ P entry.2.name ∧ ∀ i, ¬ Q (IxManager.getIndexName entry.2.name i)) →
      (tabs.map (·.2.name)).Nodup →
      Ends s (openTables fdOf tabs) (fun _ s' => s'.db = s.db
          ∧ Opening fdOf (fun t => P t ∨ ∃ entry ∈ tabs, t = entry.2.name)
            (fun n => Q n ∨ ∃ entry ∈ tabs, IndexIn entry.2 n) s')
        fun e _ => OpenDbError e
  | [], s, P, Q, h, _, _ => by
      refine .of_ok rfl ⟨rfl, fun t => ?_, fun n => ?_, h.handles, h.fds⟩
      · rw [h.fhs]
        simp
      · rw [h.ihs]
        simp
  | entry :: tabs, s, P, Q, h, hnew, hdistinct => by
      obtain ⟨hnew₀, hnew⟩ := List.forall_mem_cons.mp hnew
      rw [List.map_cons, List.nodup_cons] at hdistinct
      -- the tables behind have other names
      have hother : ∀ entry' ∈ tabs, entry'.2.name ≠ entry.2.name := fun entry' hentry' hname =>
        hdistinct.1 (List.mem_map.mpr ⟨entry', hentry', hname⟩)
      have hnew' : ∀ entry' ∈ tabs, ¬ (P entry'.2.name ∨ entry'.2.name = entry.2.name)
          ∧ ∀ i, ¬ (Q (IxManager.getIndexName entry'.2.name i)
            ∨ IndexIn entry.2 (IxManager.getIndexName entry'.2.name i)) := by
        intro entry' hentry'
        refine ⟨not_or.mpr ⟨(hnew entry' hentry').1, hother entry' hentry'⟩, fun i => ?_⟩
        rintro (hQ | ⟨_, _, _, hname⟩)
        · exact (hnew entry' hentry').2 i hQ
        · exact hother entry' hentry' (getIndexName_inj hname).1
      unfold openTables
      refine (openTable_outcome h hinj hnew₀.1 hnew₀.2).bind (fun _ s₁ ⟨hdb₁, hopen₁⟩ => ?_)
        fun _ _ he => he
      refine (openTables_outcome hinj hopen₁ hnew' hdistinct.2).imp (fun _ s' ⟨hdb₂, hopen₂⟩ =>
        ⟨hdb₂.trans hdb₁, fun t => ?_, fun n => ?_, hopen₂.handles, hopen₂.fds⟩) fun _ _ he => he
      · rw [hopen₂.fhs, or_assoc]
        simp only [List.mem_cons, exists_eq_or_imp]
      · rw [hopen₂.ihs, or_assoc]
        simp only [List.mem_cons, exists_eq_or_imp]

/-! ## `open_db` -/

/-- A manager that was just started: there is no catalog, and nothing is open. -/
structure Started (s : SmManager) : Prop where
  tabs : ∀ t : String, s.db.tabs[t]? = none
  fhs : ∀ t, s.fhs t = none
  ihs : ∀ n, s.ihs n = none
  unused : s.pool.diskManager.Unused

theorem Started.opening (h : Started s) (fdOf : String → Int) (db : DbMeta) :
    Opening fdOf (fun _ => False) (fun _ => False) { s with db := db } where
  fhs t := by simp [h.fhs]
  ihs n := by simp [h.ihs]
  handles :=
    { disk := h.unused.tables
      fhOpen := fun t fh hfh => by simp [h.fhs] at hfh
      ihOpen := fun n ih hih => by simp [h.ihs] at hih
      apart := fun t _ => h.ihs t }
  fds fd path hfd := by
    dsimp only at hfd
    rw [h.unused.openFds] at hfd
    cases hfd

/-- The tables that are opened are those of the catalog. -/
theorem mem_tables {db : DbMeta} (hdb : Keyed db.tabs) (t : String) :
    (∃ entry ∈ db.tabs.toList, t = entry.2.name) ↔ (db.tabs[t]?).isSome := by
  constructor
  · rintro ⟨⟨k, tab⟩, hentry, rfl⟩
    have hk := Std.TreeMap.mem_toList_iff_getElem?_eq_some.mp hentry
    dsimp only
    rw [(hdb k tab hk).1, hk]
    rfl
  · intro ht
    obtain ⟨tab, htab⟩ := Option.isSome_iff_exists.mp ht
    exact ⟨(t, tab), Std.TreeMap.mem_toList_iff_getElem?_eq_some.mpr htab, (hdb t tab htab).1.symm⟩

/-- So are the indexes. -/
theorem mem_indexes {db : DbMeta} (hdb : Keyed db.tabs) (n : String) :
    (∃ entry ∈ db.tabs.toList, IndexIn entry.2 n) ↔ IndexOf (db.tabs[·]?) n := by
  constructor
  · rintro ⟨⟨k, tab⟩, hentry, ⟨col, i⟩, hcol, hindex, hname⟩
    have hk := Std.TreeMap.mem_toList_iff_getElem?_eq_some.mp hentry
    dsimp only at hname
    rw [(hdb k tab hk).1] at hname
    exact ⟨k, tab, i, col, hk, List.mem_zipIdx_iff_getElem?.mp hcol, hindex, hname⟩
  · rintro ⟨t, tab, i, col, htab, hcol, hindex, hname⟩
    refine ⟨(t, tab), Std.TreeMap.mem_toList_iff_getElem?_eq_some.mpr htab, (col, i),
      List.mem_zipIdx_iff_getElem?.mpr hcol, hindex, ?_⟩
    rw [hname, (hdb t tab htab).1]

/-- **`open_db`** opens what the catalog says, whatever it says, unless a file is missing, is open
already or cannot be opened. -/
theorem openDb_outcome {u : Indeterminate} (hint : IsInt32 u.int) (hs : Started s)
    (hinj : Function.Injective fdOf) (metaText : List Char) :
    Ends s (openDb u metaText fdOf) (fun _ => Mirrors) fun e _ => OpenDbError e := by
  have hempty : Keyed s.db.tabs := fun t tab htab => by
    rw [hs.tabs] at htab
    cases htab
  let db := ((DbMeta.read u s.db).run ⟨metaText, false⟩).1
  have hkeyed : Keyed db.tabs := keyed_read hint hempty _
  have hdistinct : (db.tabs.toList.map (·.2.name)).Nodup := by
    have hkeys : db.tabs.toList.map (·.2.name) = db.tabs.toList.map Prod.fst := by
      refine List.map_congr_left fun entry hentry => ?_
      exact (hkeyed _ _ (Std.TreeMap.mem_toList_iff_getElem?_eq_some.mp hentry)).1
    rw [hkeys, List.nodup_iff_pairwise_ne, List.pairwise_map]
    refine (Std.TreeMap.distinct_keys_toList (t := db.tabs)).imp fun hne heq => ?_
    exact hne (by rw [heq]; exact Std.ReflCmp.compare_self)
  have hrun : (openDb u metaText fdOf).run s
      = (openTables fdOf db.tabs.toList).run { s with db := db } := by
    unfold openDb
    rw [run_modify_bind, run_get_bind]
  refine .of_run hrun <| (openTables_outcome hinj (hs.opening fdOf db)
    (fun _ _ => ⟨not_false, fun _ => not_false⟩) hdistinct).imp (fun _ s' ⟨hdb, hopen⟩ => ?_)
    fun _ _ he => he
  have htabs : s'.db.tabs = db.tabs := by rw [hdb]
  have hfhs : ∀ t, (s'.fhs t).isSome ↔ (s'.db.tabs[t]?).isSome := fun t => by
    rw [htabs, hopen.fhs, false_or]
    exact mem_tables hkeyed t
  refine ⟨fun t tab ht => ?_, fun t => (hfhs t).mp, fun t tab ht _ => ⟨?_, (hfhs t).mpr ?_⟩,
    fun n => ?_, hopen.handles⟩
  · rw [htabs] at ht
    exact (hkeyed t tab ht).2
  · rw [htabs] at ht
    exact (hkeyed t tab ht).1
  · rw [ht]
    rfl
  · rw [htabs, hopen.ihs, false_or]
    exact mem_indexes hkeyed n

end SmManager

end Rucbase
