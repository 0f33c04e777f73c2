import Rucbase.Record.RmScan
import Mathlib.Data.Int.Interval
import Mathlib.Data.Set.Card

/-!
# A scan among other calls

One scan of a record file, interleaved with inserts, updates and deletes: the constructor once,
`next` while the scan is not at its end. The cursor divides the rids: what was a record all the
time and lies at or before the cursor has been returned, and the rest lies behind it.
-/

namespace Rucbase

open Lib RmPageHandle RmFileHandle

/-- A call on the file, or a step of the scan. -/
inductive ScanCall where
  | op (op : RmOp)
  | new
  | next

/-- A record file with its map, and the scan once it is constructed. -/
structure ScanWorld where
  world : RmWorld
  scan : Option RmScan

/-- One entry of the history. -/
structure ScanEvent where
  before : ScanWorld
  call : ScanCall
  after : ScanWorld

namespace ScanWorld

variable {rs : Int} {w w' : ScanWorld} {e : ScanEvent} {h : List ScanEvent} {r : Rid}

/-- There is a scan, and it is not at its end. -/
def Scanning (w : ScanWorld) : Prop := ∃ scan, w.scan = some scan ∧ scan.isEnd = false

/-- The scan is at its end. -/
def Ended (w : ScanWorld) : Prop := ∃ scan, w.scan = some scan ∧ scan.isEnd = true

/-- One step: a call the file's clients may make, the constructor, or `next` on a scan that is not
at its end. -/
def Step (rs : Int) (w : ScanWorld) (e : ScanEvent) (w' : ScanWorld) : Prop :=
  e.before = w ∧ e.after = w' ∧
    match e.call with
    | .op op => ∃ ret, RmWorld.step rs w.world op = some (ret, w'.world) ∧ w'.scan = w.scan
    | .new => w.scan = none ∧ ∃ scan, RmScan.new.run w.world.file = .ok scan w'.world.file
        ∧ w'.world.records = w.world.records ∧ w'.scan = some scan
    | .next => ∃ scan scan', w.scan = some scan ∧ scan.isEnd = false
        ∧ (RmScan.next scan).run w.world.file = .ok scan' w'.world.file
        ∧ w'.world.records = w.world.records ∧ w'.scan = some scan'

/-- Runs from a file just created and opened, with no scan yet. -/
abbrev Calls (rs : Int) (h : List ScanEvent) (w : ScanWorld) : Prop :=
  Run (Step rs) ⟨.created rs, none⟩ h w

/-- The rid a step of the scan returns. -/
def returnedBy (e : ScanEvent) : Option Rid :=
  match e.call with
  | .op _ => none
  | .new | .next => (e.after.scan.filter fun scan => !scan.isEnd).map RmScan.rid

/-- The rids the scan has returned, the last one first. -/
def returned (h : List ScanEvent) : List Rid := h.filterMap returnedBy

/-- The rid holds a record. -/
def Live (w : ScanWorld) (r : Rid) : Prop := w.world.file.liveRecord r ≠ none

/-- The rid was a record from the construction of the scan until it came to its end. -/
def LiveThroughout (r : Rid) (h : List ScanEvent) : Prop :=
  ∀ e ∈ h, e.call = .new ∨ e.before.Scanning → e.after.Live r

/-- No call comes between the steps of the scan. -/
def Quiet (h : List ScanEvent) : Prop := ∀ e ∈ h, e.before.scan ≠ none → e.call = .next

/-- How often `next` was called. -/
def steps (h : List ScanEvent) : Nat :=
  h.countP fun e => match e.call with
    | .next => true
    | _ => false

/-- The rid lies before the scan, or the scan is still to be constructed. -/
def Ahead (w : ScanWorld) (r : Rid) : Prop :=
  ∀ scan, w.scan = some scan → scan.isEnd = false ∧ scan.rid < r

/-- What a run keeps. -/
structure Inv (rs : Int) (w : ScanWorld) (h : List ScanEvent) : Prop where
  agrees : RmWorld.Agrees rs w.world
  /-- The scan stands on the rid it returned last. -/
  last : ∀ scan, w.scan = some scan → scan.isEnd = false →
    (returned h).head? = some scan.rid ∧ 1 ≤ scan.rid.pageNo ∧ -1 ≤ scan.rid.slotNo
  unscanned : w.scan = none → returned h = [] ∧ steps h = 0
  sorted : (returned h).Pairwise fun a b => b < a
  live : ∀ e ∈ h, ∀ r, returnedBy e = some r → e.after.Live r
  complete : ∀ r, LiveThroughout r h → r ∈ returned h ∨ w.Ahead r
  quiet : Quiet h → w.scan ≠ none → (∀ r ∈ returned h, w.Live r)
    ∧ (∀ r, w.Live r → r ∈ returned h ∨ w.Ahead r)
    ∧ (w.Ended → (returned h).length = steps h)
    ∧ (w.Scanning → (returned h).length = steps h + 1)

theorem LiveThroughout.tail (hl : LiveThroughout r (e :: h)) : LiveThroughout r h :=
  fun e' he' => hl e' (List.mem_cons_of_mem _ he')

theorem Quiet.tail (hq : Quiet (e :: h)) : Quiet h :=
  fun e' he' => hq e' (List.mem_cons_of_mem _ he')

theorem Ended.not_scanning (he : w.Ended) : ¬ w.Scanning := by
  intro hs
  obtain ⟨scan, hscan, hend⟩ := he
  obtain ⟨scan', hscan', hend'⟩ := hs
  rw [hscan, Option.some.injEq] at hscan'
  rw [← hscan', hend] at hend'
  exact absurd hend' (by simp)

/-! ## A step of the scan -/

/-- A scan that went on from `rid` to `scan`, on a file that stays as it is. -/
structure Went (w : ScanWorld) (rid : Rid) (e : ScanEvent) (scan : RmScan) (w' : ScanWorld) :
    Prop where
  after : e.after = w'
  world : w'.world = w.world
  cursor : w'.scan = some scan
  moved : RmScan.Moved w.world.file rid scan
  answer : returnedBy e = if scan.isEnd then none else some scan.rid

variable {rid : Rid} {scan : RmScan}

theorem Went.live_iff (hw : Went w rid e scan w') : w'.Live r ↔ w.Live r := by
  unfold Live
  rw [hw.world]

/-- What the step returned comes behind everything before it. -/
theorem Went.sorted (hw : Went w rid e scan w') (hs : (returned h).Pairwise fun a b => b < a)
    (hbefore : ∀ r ∈ returned h, r = rid ∨ r < rid) :
    (returned (e :: h)).Pairwise fun a b => b < a := by
  unfold ScanWorld.returned
  rw [List.filterMap_cons, hw.answer]
  cases hend : scan.isEnd with
  | true => exact hs
  | false =>
      refine List.pairwise_cons.mpr ⟨fun r hr => ?_, hs⟩
      have hlt := (hw.moved.found hend).1
      rcases hbefore r hr with rfl | hr
      · exact hlt
      · exact Rid.lt_trans hr hlt

/-- A record behind `rid` was returned by the step, or lies ahead of it. -/
theorem Went.ahead (hw : Went w rid e scan w') (hlive : w.Live r) (hr : rid < r) :
    r ∈ returned (e :: h) ∨ w'.Ahead r := by
  cases hend : scan.isEnd with
  | true =>
      have hdead := hw.moved.skipped r hr fun hc => absurd (hend.symm.trans hc) (by simp)
      exact absurd hdead hlive
  | false =>
      by_cases hlt : scan.rid < r
      · refine .inr fun scan' hscan' => ?_
        obtain rfl := Option.some.inj (hw.cursor.symm.trans hscan')
        exact ⟨hend, hlt⟩
      · rcases Rid.eq_or_lt hlt with heq | hgt
        · refine .inl ?_
          unfold ScanWorld.returned
          rw [List.filterMap_cons, hw.answer, hend]
          exact heq ▸ List.mem_cons_self
        · exact absurd (hw.moved.skipped r hr fun _ => hgt) hlive

theorem Went.mem_returned (hw : Went w rid e scan w') (hr : r ∈ returned (e :: h)) :
    r ∈ returned h ∨ (scan.isEnd = false ∧ r = scan.rid) := by
  unfold ScanWorld.returned at hr
  rw [List.filterMap_cons, hw.answer] at hr
  cases hend : scan.isEnd with
  | true =>
      rw [hend] at hr
      exact .inl hr
  | false =>
      rw [hend] at hr
      rcases List.mem_cons.mp hr with rfl | hr
      · exact .inr ⟨rfl, rfl⟩
      · exact .inl hr

theorem Went.mem_of_mem (hw : Went w rid e scan w') (hr : r ∈ returned h) :
    r ∈ returned (e :: h) := by
  unfold ScanWorld.returned
  rw [List.filterMap_cons, hw.answer]
  cases scan.isEnd with
  | true => exact hr
  | false => exact List.mem_cons_of_mem _ hr

theorem Went.length (hw : Went w rid e scan w') : (returned (e :: h)).length
    = (returned h).length + if scan.isEnd then 0 else 1 := by
  unfold ScanWorld.returned
  rw [List.filterMap_cons, hw.answer]
  cases scan.isEnd with
  | true => rfl
  | false => rfl

/-- **A step of the scan keeps the invariant** if what was returned lies at or before `rid`, and
what is still to be returned lies behind it. -/
theorem Went.inv (hw : Went w rid e scan w') (hi : Inv rs w h)
    (hbefore : ∀ r ∈ returned h, r = rid ∨ r < rid)
    (hahead : ∀ r, w.Live r → w.Ahead r → rid < r)
    (hcall : e.call = .new ∨ e.before.Scanning)
    (hquiet : Quiet h → ∀ r ∈ returned h, w.Live r)
    (hsplit : Quiet h → ∀ r, w.Live r → r ∈ returned h ∨ w.Ahead r)
    (hsteps : Quiet h → (returned h).length = steps (e :: h)) : Inv rs w' (e :: h) where
  agrees := hw.world ▸ hi.agrees
  last := by
    intro scan' hscan' hend
    obtain rfl := Option.some.inj (hw.cursor.symm.trans hscan')
    -- a cursor that is not at the end stands on a record
    obtain ⟨free, hinv⟩ := hi.agrees.inv
    obtain ⟨h1, _, h0, _⟩ := RmScan.live_bounds hinv (hw.moved.found hend).2
    refine ⟨?_, h1, by omega⟩
    unfold ScanWorld.returned
    rw [List.filterMap_cons, hw.answer, hend]
    rfl
  unscanned := fun hno => absurd (hw.cursor.symm.trans hno) (by simp)
  sorted := hw.sorted hi.sorted hbefore
  live := by
    intro e' he' r hr
    rcases List.mem_cons.mp he' with rfl | he'
    · rw [hw.after, hw.live_iff]
      rw [hw.answer] at hr
      cases hend : scan.isEnd with
      | true =>
          rw [hend] at hr
          exact absurd hr (by simp)
      | false =>
          rw [hend] at hr
          obtain rfl : scan.rid = r := Option.some.inj hr
          exact (hw.moved.found hend).2
    · exact hi.live e' he' r hr
  complete := by
    intro r hr
    have hlive : w.Live r := hw.live_iff.mp (hw.after ▸ hr e List.mem_cons_self hcall)
    rcases hi.complete r hr.tail with hmem | hah
    · exact .inl (hw.mem_of_mem hmem)
    · exact hw.ahead hlive (hahead r hlive hah)
  quiet := by
    intro hq _
    refine ⟨fun r hr => ?_, fun r hr => ?_, fun hend => ?_, fun hscan => ?_⟩
    · rw [hw.live_iff]
      rcases hw.mem_returned hr with hr | ⟨hend, rfl⟩
      · exact hquiet hq.tail r hr
      · exact (hw.moved.found hend).2
    · have hlive := hw.live_iff.mp hr
      rcases hsplit hq.tail r hlive with hmem | hah
      · exact .inl (hw.mem_of_mem hmem)
      · exact hw.ahead hlive (hahead r hlive hah)
    · obtain ⟨scan', hscan', hend⟩ := hend
      obtain rfl := Option.some.inj (hw.cursor.symm.trans hscan')
      have := hsteps hq.tail
      rw [hw.length, hend, if_pos rfl]
      omega
    · obtain ⟨scan', hscan', hend⟩ := hscan
      obtain rfl := Option.some.inj (hw.cursor.symm.trans hscan')
      have := hsteps hq.tail
      rw [hw.length, hend]
      show (returned h).length + 1 = _
      omega

/-! ## Every step -/

theorem inv_created (h1 : 1 ≤ rs) (h2 : rs ≤ rmMaxRecordSize) : Inv rs ⟨.created rs, none⟩ [] where
  agrees := RmWorld.agrees_created h1 h2
  last := by
    intro scan hscan
    exact absurd hscan (by simp)
  unscanned := fun _ => ⟨rfl, rfl⟩
  sorted := List.Pairwise.nil
  live := by
    intro e he
    exact absurd he (by simp)
  complete := by
    intro r _
    refine .inr fun scan hscan => ?_
    exact absurd hscan (by simp)
  quiet := fun _ hscan => absurd rfl hscan

/-- A call on the file leaves the cursor where it is. -/
theorem inv_op {op : RmOp} (hi : Inv rs w h) (hcall : e.call = .op op)
    (hstep : Step rs w e w') : Inv rs w' (e :: h) := by
  obtain ⟨hbefore, hafter, hmid⟩ := hstep
  rw [hcall] at hmid
  obtain ⟨ret, hop, hscan⟩ := hmid
  have hnone : returnedBy e = none := by
    unfold returnedBy
    rw [hcall]
  have hret : returned (e :: h) = returned h := by
    unfold returned
    rw [List.filterMap_cons, hnone]
  have hsteps : steps (e :: h) = steps h := by
    unfold steps
    rw [List.countP_cons, hcall]
    rfl
  refine ⟨(RmWorld.agrees_step hi.agrees hop).1, ?_, ?_, ?_, ?_, ?_, ?_⟩
  · rw [hret, hscan]
    exact hi.last
  · rw [hret, hscan, hsteps]
    exact hi.unscanned
  · exact hret ▸ hi.sorted
  · intro e' he' r hr
    rcases List.mem_cons.mp he' with rfl | he'
    · exact absurd (hnone.symm.trans hr) (by simp)
    · exact hi.live e' he' r hr
  · intro r hr
    unfold Ahead
    rw [hret, hscan]
    exact hi.complete r hr.tail
  · -- a scan that was not disturbed has seen no such call
    intro hq hno
    have hnext := hq e List.mem_cons_self (by rw [hbefore, ← hscan]; exact hno)
    exact absurd (hcall.symm.trans hnext) (by simp)

/-- The constructor and `next` go on from where the scan stands. -/
theorem went_of_call {scan' : RmScan} (hafter : e.after = w')
    (hcall : e.call = .new ∨ e.call = .next) (hfile : w'.world.file = w.world.file)
    (hrecords : w'.world.records = w.world.records) (hscan : w'.scan = some scan')
    (hmoved : RmScan.Moved w.world.file rid scan') : Went w rid e scan' w' where
  after := hafter
  world := by
    obtain ⟨⟨file, records⟩, cursor⟩ := w'
    obtain rfl : file = _ := hfile
    obtain rfl : records = _ := hrecords
    rfl
  cursor := hscan
  moved := hmoved
  answer := by
    have hret : returnedBy e = (w'.scan.filter fun scan => !scan.isEnd).map RmScan.rid := by
      unfold returnedBy
      rcases hcall with hcall | hcall <;> rw [hcall, hafter]
    rw [hret, hscan, Option.filter_some]
    cases scan'.isEnd <;> rfl

theorem inv_new (hi : Inv rs w h) (hcall : e.call = .new) (hstep : Step rs w e w') :
    Inv rs w' (e :: h) := by
  obtain ⟨hbefore, hafter, hmid⟩ := hstep
  rw [hcall] at hmid
  obtain ⟨hno, scan, hrun, hrecords, hscan⟩ := hmid
  obtain ⟨free, hinv⟩ := hi.agrees.inv
  obtain ⟨scan', hnew, hmoved⟩ := RmScan.new_spec hinv
  obtain ⟨rfl, hfile⟩ := EStateM.Result.ok.inj (hnew.symm.trans hrun)
  have hw := went_of_call hafter (.inl hcall) hfile.symm hrecords hscan hmoved
  obtain ⟨hret, hsteps⟩ := hi.unscanned hno
  refine hw.inv hi ?_ (fun r hr _ => RmScan.first_lt hinv hr) (.inl hcall) ?_ ?_ ?_
  · rw [hret]
    intro r hr
    exact absurd hr (by simp)
  · rw [hret]
    intro _ r hr
    exact absurd hr (by simp)
  · refine fun _ r _ => .inr fun scan hscan => ?_
    exact absurd (hno.symm.trans hscan) (by simp)
  · unfold steps at hsteps ⊢
    rw [hret, List.countP_cons, hsteps, hcall]
    intro _
    rfl

theorem inv_next (hi : Inv rs w h) (hcall : e.call = .next) (hstep : Step rs w e w') :
    Inv rs w' (e :: h) := by
  obtain ⟨hbefore, hafter, hmid⟩ := hstep
  rw [hcall] at hmid
  obtain ⟨cur, scan, hcur, hend, hrun, hrecords, hscan⟩ := hmid
  obtain ⟨free, hinv⟩ := hi.agrees.inv
  obtain ⟨hhead, h1, h2⟩ := hi.last cur hcur hend
  obtain ⟨scan', hnext, hmoved⟩ := RmScan.next_spec hinv h1 h2
  obtain ⟨rfl, hfile⟩ := EStateM.Result.ok.inj (hnext.symm.trans hrun)
  have hw := went_of_call hafter (.inr hcall) hfile.symm hrecords hscan hmoved
  have hsome : w.scan ≠ none := by
    rw [hcur]
    simp
  refine hw.inv hi ?_ ?_ (.inr ⟨cur, hbefore ▸ hcur, hend⟩) (fun hq => (hi.quiet hq hsome).1)
    (fun hq => (hi.quiet hq hsome).2.1) ?_
  · -- the cursor is on the rid returned last, which is the greatest one
    intro r hr
    have hsorted := hi.sorted
    obtain ⟨tail, htail⟩ := List.head?_eq_some_iff.mp hhead
    rw [htail] at hr hsorted
    rcases List.mem_cons.mp hr with rfl | hr
    · exact .inl rfl
    · exact .inr ((List.pairwise_cons.mp hsorted).1 r hr)
  · exact fun r _ hah => (hah cur hcur).2
  · intro hq
    rw [(hi.quiet hq hsome).2.2.2 ⟨cur, hcur, hend⟩]
    unfold steps
    rw [List.countP_cons, hcall]
    rfl

/-- **The run lemma.** -/
theorem inv_run (h1 : 1 ≤ rs) (h2 : rs ≤ rmMaxRecordSize) (hrun : Calls rs h w) : Inv rs w h := by
  refine hrun.invariant_history (inv_created h1 h2) ?_
  intro t hs e t' hi hstep
  cases hcall : e.call with
  | op op => exact inv_op hi hcall hstep
  | new => exact inv_new hi hcall hstep
  | next => exact inv_next hi hcall hstep

/-! ## What a scan amounts to -/

theorem Inv.nodup (hi : Inv rs w h) : (returned h).Nodup := by
  refine hi.sorted.imp fun {a b} hlt heq => ?_
  exact Rid.lt_irrefl b (heq ▸ hlt)

/-- A file has finitely many records. -/
theorem Inv.finite (hi : Inv rs w h) : {r | w.Live r}.Finite := by
  obtain ⟨free, hinv⟩ := hi.agrees.inv
  let pages := Set.Ico (1 : Int) w.world.file.fileHdr.numPages
  let slots := Set.Ico (0 : Int) w.world.file.fileHdr.numRecordsPerPage
  refine (((Set.finite_Ico _ _).prod (Set.finite_Ico _ _) : (pages ×ˢ slots).Finite).image
    fun p => (⟨p.1, p.2⟩ : Rid)).subset ?_
  intro r hr
  obtain ⟨hp1, hp2, hs1, hs2⟩ := RmScan.live_bounds hinv hr
  exact ⟨(r.pageNo, r.slotNo), ⟨⟨hp1, hp2⟩, hs1, hs2⟩, rfl⟩

/-- At the end nothing lies ahead. -/
theorem Ended.not_ahead (he : w.Ended) : ¬ w.Ahead r := by
  intro hah
  obtain ⟨scan, hscan, hend⟩ := he
  exact absurd ((hah scan hscan).1.symm.trans hend) (by simp)

theorem Inv.count_eq_one (hi : Inv rs w h) (he : w.Ended) (hl : LiveThroughout r h) :
    (returned h).count r = 1 := by
  rcases hi.complete r hl with hmem | hah
  · exact List.count_eq_one_of_mem hi.nodup hmem
  · exact absurd hah he.not_ahead

theorem Inv.mem_iff (hi : Inv rs w h) (hq : Quiet h) (he : w.Ended) :
    r ∈ returned h ↔ w.Live r := by
  obtain ⟨scan, hscan, _⟩ := id he
  obtain ⟨hlive, hsplit, _⟩ := hi.quiet hq (by rw [hscan]; simp)
  constructor
  · exact hlive r
  · intro hr
    rcases hsplit r hr with hmem | hah
    · exact hmem
    · exact absurd hah he.not_ahead

/-- A scan that nothing disturbs has returned no more rids than there are records. -/
theorem Inv.length_le (hi : Inv rs w h) (hq : Quiet h) (hscan : w.scan ≠ none) :
    (returned h).length ≤ {r | w.Live r}.ncard := by
  have hsub : ((returned h).toFinset : Set Rid) ⊆ {r | w.Live r} := by
    intro r hr
    exact (hi.quiet hq hscan).1 r (List.mem_toFinset.mp (Finset.mem_coe.mp hr))
  rw [← List.toFinset_card_of_nodup hi.nodup, ← Set.ncard_coe_finset]
  exact Set.ncard_le_ncard hsub hi.finite

theorem Inv.length_eq (hi : Inv rs w h) (hq : Quiet h) (he : w.Ended) :
    (returned h).length = {r | w.Live r}.ncard := by
  have hset : ((returned h).toFinset : Set Rid) = {r | w.Live r} := by
    ext r
    exact Iff.trans (by simp) (hi.mem_iff hq he)
  rw [← List.toFinset_card_of_nodup hi.nodup, ← Set.ncard_coe_finset, hset]

/-- It ends after as many steps as there are records. -/
theorem Inv.ended_iff (hi : Inv rs w h) (hq : Quiet h) (hscan : w.scan ≠ none) :
    (w.Ended ↔ steps h = {r | w.Live r}.ncard) ∧ steps h ≤ {r | w.Live r}.ncard := by
  obtain ⟨_, _, hended, hscanning⟩ := hi.quiet hq hscan
  obtain ⟨scan, hs⟩ := Option.ne_none_iff_exists'.mp hscan
  cases hend : scan.isEnd with
  | true =>
      have he : w.Ended := ⟨scan, hs, hend⟩
      have heq := (hended he).symm.trans (hi.length_eq hq he)
      exact ⟨iff_of_true he heq, heq.le⟩
  | false =>
      have hcur : w.Scanning := ⟨scan, hs, hend⟩
      have hle := hi.length_le hq hscan
      rw [hscanning hcur] at hle
      refine ⟨iff_of_false (fun he => he.not_scanning hcur) ?_, ?_⟩ <;> omega

/-- The scan can always be constructed, and `next` always returns. -/
theorem Inv.progress (hi : Inv rs w h) :
    (w.scan = none → ∃ e w', e.call = .new ∧ Step rs w e w')
    ∧ (w.Scanning → ∃ e w', e.call = .next ∧ Step rs w e w') := by
  obtain ⟨free, hinv⟩ := hi.agrees.inv
  constructor
  · intro hno
    obtain ⟨scan, hrun, _⟩ := RmScan.new_spec hinv
    exact ⟨⟨w, .new, ⟨w.world, some scan⟩⟩, _, rfl, rfl, rfl, hno, scan, hrun, rfl, rfl⟩
  · intro hs
    obtain ⟨cur, hcur, hend⟩ := hs
    obtain ⟨_, h1, h2⟩ := hi.last cur hcur hend
    obtain ⟨scan, hrun, _⟩ := RmScan.next_spec hinv h1 h2
    exact ⟨⟨w, .next, ⟨w.world, some scan⟩⟩, _, rfl, rfl, rfl, cur, scan, hcur, hend, hrun, rfl,
      rfl⟩

end ScanWorld

/-! ## The result -/

section

variable {rs : Int} {h : List ScanEvent} {w : ScanWorld}

open ScanWorld

/-- **A scan is stable under modification.** It returns rids in increasing order, each one a record
at that moment; what was a record all along is returned exactly once; and on a file that nobody
touches meanwhile it takes as many steps as there are records and returns exactly them. -/
theorem scan_stable (h1 : 1 ≤ rs) (h2 : rs ≤ rmMaxRecordSize) (hrun : ScanWorld.Calls rs h w) :
    ((returned h).Pairwise fun later earlier => earlier < later)
    ∧ (∀ e ∈ h, ∀ r, returnedBy e = some r → e.after.Live r)
    ∧ (w.Ended → ∀ r, LiveThroughout r h → (returned h).count r = 1)
    ∧ (Quiet h → w.scan ≠ none →
        (w.Ended ↔ steps h = {r | w.Live r}.ncard) ∧ steps h ≤ {r | w.Live r}.ncard)
    ∧ (Quiet h → w.Ended → ∀ r, r ∈ returned h ↔ w.Live r)
    ∧ (w.scan = none → ∃ e w', e.call = .new ∧ Step rs w e w')
    ∧ (w.Scanning → ∃ e w', e.call = .next ∧ Step rs w e w') := by
  have hi := inv_run h1 h2 hrun
  refine ⟨hi.sorted, hi.live, fun he r hl => hi.count_eq_one he hl, fun hq => hi.ended_iff hq,
    fun hq he r => hi.mem_iff hq he, hi.progress⟩

/-- A step of the scan or a call, computed. -/
def ScanWorld.exec (rs : Int) (w : ScanWorld) : ScanCall → Option ScanWorld
  | .op op => (RmWorld.step rs w.world op).map fun answer => ⟨answer.2, w.scan⟩
  | .new =>
      match w.scan, RmScan.new.run w.world.file with
      | none, .ok scan file => some ⟨⟨file, w.world.records⟩, some scan⟩
      | _, _ => none
  | .next => w.scan.bind fun scan =>
      match scan.isEnd, scan.next.run w.world.file with
      | false, .ok scan' file => some ⟨⟨file, w.world.records⟩, some scan'⟩
      | _, _ => none

theorem ScanWorld.exec_step {w' : ScanWorld} {call : ScanCall} (he : w.exec rs call = some w') :
    Step rs w ⟨w, call, w'⟩ w' := by
  refine ⟨rfl, rfl, ?_⟩
  cases call with
  | op op =>
      obtain ⟨⟨ret, world⟩, hstep, rfl⟩ := Option.map_eq_some_iff.mp he
      exact ⟨ret, hstep, rfl⟩
  | new =>
      rw [exec] at he
      split at he
      · rename_i hno hrun
        obtain rfl := Option.some.inj he
        exact ⟨hno, _, hrun, rfl, rfl⟩
      · cases he
  | next =>
      obtain ⟨scan, hscan, he⟩ := Option.bind_eq_some_iff.mp he
      split at he
      · rename_i hend hrun
        obtain rfl := Option.some.inj he
        exact ⟨scan, _, hscan, hend, hrun, rfl, rfl⟩
      · cases he

/-- Some calls, one after the other. -/
def ScanWorld.play (rs : Int) : List ScanCall → List ScanEvent → ScanWorld →
    Option (List ScanEvent × ScanWorld)
  | [], h, w => some (h, w)
  | call :: calls, h, w => (w.exec rs call).bind fun w' => play rs calls (⟨w, call, w'⟩ :: h) w'

theorem ScanWorld.play_calls {h' : List ScanEvent} {w' : ScanWorld} : ∀ {calls : List ScanCall}
    {h : List ScanEvent} {w : ScanWorld}, ScanWorld.Calls rs h w →
    play rs calls h w = some (h', w') → ScanWorld.Calls rs h' w'
  | [], _, _, hrun, hplay => by
      obtain ⟨rfl, rfl⟩ := Prod.mk.inj (Option.some.inj hplay)
      exact hrun
  | call :: calls, _, _, hrun, hplay => by
      obtain ⟨w'', hstep, hplay⟩ := Option.bind_eq_some_iff.mp hplay
      exact play_calls (.step hrun (exec_step hstep)) hplay

/-- Where a scan was constructed or went on, there is one. -/
theorem ScanWorld.Calls.scan_isSome (hcalls : ScanWorld.Calls rs h w) : ∀ e ∈ h,
    e.call = .new ∨ e.before.Scanning → e.after.scan.isSome := by
  refine hcalls.invariant_history (I := fun _ h => ∀ e ∈ h,
    e.call = .new ∨ e.before.Scanning → e.after.scan.isSome) (by simp) ?_
  intro w hs e w' ih hstep
  refine List.forall_mem_cons.mpr ⟨fun hcall => ?_, ih⟩
  obtain ⟨hbefore, hafter, hmid⟩ := hstep
  rw [hafter]
  cases hc : e.call with
  | op op =>
      rw [hc] at hmid
      obtain ⟨_, _, hscan⟩ := hmid
      obtain ⟨scan, hcur, _⟩ := hcall.resolve_left (by rw [hc]; nofun)
      rw [hscan, ← hbefore, hcur]
      rfl
  | new =>
      rw [hc] at hmid
      obtain ⟨_, _, _, _, hscan⟩ := hmid
      rw [hscan]
      rfl
  | next =>
      rw [hc] at hmid
      obtain ⟨_, _, _, _, _, _, hscan⟩ := hmid
      rw [hscan]
      rfl

/-- Three records; behind the first of them the scan loses the second, and a new record takes its
place when the scan is past it. -/
def threeRecords : List ScanCall :=
  [.op (.insert fun _ => 7), .op (.insert fun _ => 8), .op (.insert fun _ => 9), .new,
    .op (.delete ⟨1, 1⟩), .next, .op (.insert fun _ => 5), .next]

/-- The two records that stay are returned once each, in order. -/
theorem scan_stable_three_records : ∃ h w, ScanWorld.Calls 512 h w ∧ w.Ended
    ∧ w.Live ⟨1, 1⟩ ∧ returned h = [⟨1, 2⟩, ⟨1, 0⟩]
    ∧ (LiveThroughout ⟨1, 2⟩ h ∧ (returned h).count ⟨1, 2⟩ = 1)
    ∧ LiveThroughout ⟨1, 0⟩ h ∧ (returned h).count ⟨1, 0⟩ = 1 := by
  have hplay : (play 512 threeRecords [] ⟨.created 512, none⟩).any (fun r =>
      returned r.1 = [⟨1, 2⟩, ⟨1, 0⟩] ∧ r.2.scan = some .atEnd
      ∧ (r.2.world.file.liveRecord ⟨1, 1⟩).isSome
      ∧ ∀ e ∈ r.1, e.after.scan.isSome → ∀ no ∈ [2, 0],
          (e.after.world.file.liveRecord ⟨1, no⟩).isSome) = true := by decide +kernel
  obtain ⟨⟨h, w⟩, hrun, hfacts⟩ := (Option.any_eq_true _ _).mp hplay
  obtain ⟨hret, hscan, hnew, hall⟩ := of_decide_eq_true hfacts
  have hcalls : ScanWorld.Calls 512 h w := play_calls .nil hrun
  have hended : w.Ended := ⟨_, hscan, rfl⟩
  have hthrough : ∀ no ∈ [2, 0], LiveThroughout ⟨1, no⟩ h := fun no hno e he hcall =>
    Option.isSome_iff_ne_none.mp (hall e he (hcalls.scan_isSome e he hcall) no hno)
  have hones : ∀ no ∈ [2, 0], (returned h).count ⟨1, no⟩ = 1 := fun no hno =>
    (scan_stable (by decide) (by decide) hcalls).2.2.1 hended _ (hthrough no hno)
  refine ⟨h, w, hcalls, hended, Option.isSome_iff_ne_none.mp hnew, hret, ?_⟩
  exact ⟨⟨hthrough 2 (by simp), hones 2 (by simp)⟩, hthrough 0 (by simp), hones 0 (by simp)⟩

end

end Rucbase
