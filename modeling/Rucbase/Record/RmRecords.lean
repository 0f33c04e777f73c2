import Rucbase.Record.RmInvariant

/-!
# A record file as a map

The slot a record identifier names, read from the bytes of its page: the liveness bit and the
record. Each call is inverted to what it does to every slot of the file; what the free chain
does meanwhile is `RmInv`.
-/

namespace Rucbase

open Lib RmPageHandle

namespace RmFileHandle

variable {s s' : RmFileHandle} {no first : Int} {d d' : PageData} {buf : Nat → UInt8} {k : Nat}
  {free : List Int} {rid r : Rid} {bytes : List UInt8}

/-- The liveness bit and the bytes of a slot. -/
def slot (s : RmFileHandle) (rid : Rid) : Option (Bool × List UInt8) :=
  match s.store.pages rid.pageNo with
  | none => none
  | some d =>
      if 0 ≤ rid.slotNo ∧ rid.slotNo < s.fileHdr.numRecordsPerPage then
        some (isSet d rid.slotNo.toNat, record s.fileHdr d rid.slotNo.toNat)
      else none

/-- The record a rid holds. -/
def liveRecord (s : RmFileHandle) (rid : Rid) : Option (List UInt8) :=
  match s.slot rid with
  | some (true, bytes) => some bytes
  | _ => none

theorem liveRecord_congr (h : s'.slot rid = s.slot rid) : s'.liveRecord rid = s.liveRecord rid := by
  rw [liveRecord, liveRecord, h]

theorem liveRecord_of_dead (h : s.slot rid = some (false, bytes)) : s.liveRecord rid = none := by
  rw [liveRecord, h]

theorem slot_of_page (hp : s.store.pages rid.pageNo = some d) (h0 : 0 ≤ rid.slotNo)
    (h1 : rid.slotNo < s.fileHdr.numRecordsPerPage) :
    s.slot rid = some (isSet d rid.slotNo.toNat, record s.fileHdr d rid.slotNo.toNat) := by
  rw [slot, hp]
  exact if_pos ⟨h0, h1⟩

/-- A live record is a set bit in a page of the file. -/
theorem liveRecord_eq_some (h : s.liveRecord rid = some bytes) :
    ∃ d, s.store.pages rid.pageNo = some d ∧ 0 ≤ rid.slotNo
      ∧ rid.slotNo < s.fileHdr.numRecordsPerPage ∧ isSet d rid.slotNo.toNat = true
      ∧ bytes = record s.fileHdr d rid.slotNo.toNat := by
  unfold liveRecord slot at h
  cases hp : s.store.pages rid.pageNo with
  | none => simp [hp] at h
  | some d =>
      simp only [hp] at h
      by_cases hr : 0 ≤ rid.slotNo ∧ rid.slotNo < s.fileHdr.numRecordsPerPage
      · rw [if_pos hr] at h
        cases hb : isSet d rid.slotNo.toNat with
        | false => simp [hb] at h
        | true =>
            simp only [hb, Option.some.injEq] at h
            exact ⟨d, rfl, hr.1, hr.2, hb, h.symm⟩
      · rw [if_neg hr] at h
        exact absurd h (by simp)

/-- **Replacing a page that differs in one slot** changes that slot alone. -/
theorem slot_setPage (hl : s.fileHdr.SoundLayout) (hp : s.store.pages no = some d)
    (hk : k < s.fileHdr.slotsPerPage)
    (hbits : ∀ q, q < s.fileHdr.slotsPerPage → q ≠ k → isSet d' q = isSet d q)
    (hrecs : ∀ q, q < s.fileHdr.slotsPerPage → q ≠ k →
      record s.fileHdr d' q = record s.fileHdr d q) :
    ((s.setPage no d').setFirst first).slot
      = Function.update s.slot ⟨no, k⟩ (some (isSet d' k, record s.fileHdr d' k)) := by
  funext r
  have hn := hl.numRecordsPerPage_eq
  by_cases hpage : r.pageNo = no
  · have hpages : ((s.setPage no d').setFirst first).store.pages r.pageNo = some d' := by
      rw [hpage]
      exact Function.update_self ..
    by_cases hr : r = ⟨no, k⟩
    · rw [hr, Function.update_self]
      exact slot_of_page (hr ▸ hpages) (Int.natCast_nonneg k)
        (show (k : Int) < s.fileHdr.numRecordsPerPage by omega)
    · rw [Function.update_of_ne hr, slot, slot, hpages, hpage, hp]
      show (if 0 ≤ r.slotNo ∧ r.slotNo < s.fileHdr.numRecordsPerPage then
        some (isSet d' r.slotNo.toNat, record s.fileHdr d' r.slotNo.toNat) else none) = _
      by_cases hrange : 0 ≤ r.slotNo ∧ r.slotNo < s.fileHdr.numRecordsPerPage
      · have hne : r.slotNo.toNat ≠ k := by
          intro heq
          refine hr (?_ : r = ⟨no, k⟩)
          obtain ⟨p, q⟩ := r
          simp only at hpage hrange heq
          rw [hpage, Rid.mk.injEq]
          exact ⟨rfl, by omega⟩
        dsimp only
        rw [if_pos hrange, if_pos hrange, hbits _ (by omega) hne, hrecs _ (by omega) hne]
      · dsimp only
        rw [if_neg hrange, if_neg hrange]
  · have hr : r ≠ ⟨no, k⟩ := fun heq => hpage (by rw [heq])
    have hpages : ((s.setPage no d').setFirst first).store.pages r.pageNo
        = s.store.pages r.pageNo := Function.update_of_ne hpage ..
    rw [Function.update_of_ne hr, slot, slot, hpages]
    rfl

/-- The records after a slot became live with `bytes`. -/
theorem liveRecord_update_live (h : s'.slot = Function.update s.slot rid (some (true, bytes))) :
    s'.liveRecord = Function.update s.liveRecord rid (some bytes) := by
  funext r
  by_cases hr : r = rid
  · rw [hr, Function.update_self, liveRecord, h, Function.update_self]
  · rw [Function.update_of_ne hr]
    exact liveRecord_congr (by rw [h, Function.update_of_ne hr])

/-- The records after a slot was cleared. -/
theorem liveRecord_update_dead (h : s'.slot = Function.update s.slot rid (some (false, bytes))) :
    s'.liveRecord = Function.update s.liveRecord rid none := by
  funext r
  by_cases hr : r = rid
  · rw [hr, Function.update_self, liveRecord, h, Function.update_self]
  · rw [Function.update_of_ne hr]
    exact liveRecord_congr (by rw [h, Function.update_of_ne hr])

/-- The slots of the old pages are as they were when a page is added. -/
theorem slot_grown (hi : RmInv s free) (hr : s.slot r ≠ none) : s.grown.slot r = s.slot r := by
  have hne : r.pageNo ≠ (s.store.nextPageNo : Int) := by
    intro heq
    refine hr ?_
    have hnone : s.store.pages r.pageNo = none := by
      rw [← Option.not_isSome_iff_eq_none, hi.present]
      omega
    rw [slot, hnone]
  have hpages : s.grown.store.pages r.pageNo = s.store.pages r.pageNo :=
    Function.update_of_ne hne ..
  rw [slot, slot, hpages]
  rfl

/-- A new page holds no record. -/
theorem liveRecord_grown (hi : RmInv s free) : s.grown.liveRecord = s.liveRecord := by
  funext r
  by_cases hnew : r.pageNo = (s.store.nextPageNo : Int)
  · have hnone : s.store.pages r.pageNo = none := by
      rw [← Option.not_isSome_iff_eq_none, hi.present]
      omega
    have hold : s.liveRecord r = none := by
      rw [liveRecord, slot, hnone]
    rw [hold, Option.eq_none_iff_forall_ne_some]
    intro b hb
    obtain ⟨d, hp, h0, h1, hset, _⟩ := liveRecord_eq_some hb
    have hd : blankPage s.fileHdr = d := by
      rw [hnew] at hp
      have : s.grown.store.pages (s.store.nextPageNo : Int) = some (blankPage s.fileHdr) :=
        Function.update_self ..
      exact Option.some.inj (this.symm.trans hp)
    have hn := hi.layout.numRecordsPerPage_eq
    have hlt : r.slotNo.toNat < s.fileHdr.slotsPerPage := by
      have : r.slotNo < s.fileHdr.numRecordsPerPage := h1
      omega
    rw [← hd, blankPage_isSet hi.layout hlt] at hset
    exact absurd hset (by simp)
  · have hpages : s.grown.store.pages r.pageNo = s.store.pages r.pageNo :=
      Function.update_of_ne hnew ..
    refine liveRecord_congr ?_
    rw [slot, slot, hpages]
    rfl

/-! ## The calls -/

/-- What `insert_record` does when the pages with room are `free`. -/
structure Inserted (free : List Int) (s : RmFileHandle) (buf : Nat → UInt8) (rid : Rid)
    (s' : RmFileHandle) : Prop where
  keeps : ∃ free', RmInv s' free'
  size : s'.fileHdr.recordSize = s.fileHdr.recordSize
  page : 1 ≤ rid.pageNo ∧ rid.pageNo < s'.fileHdr.numPages
  slot : 0 ≤ rid.slotNo ∧ rid.slotNo < s'.fileHdr.numRecordsPerPage
  dead : s.liveRecord rid = none
  live : s'.liveRecord = Function.update s.liveRecord rid (some (bytesOf s.fileHdr buf))
  others : ∀ r, r ≠ rid → s.slot r ≠ none → s'.slot r = s.slot r
  /-- A page with room is reused, at a clear slot. -/
  reuse : free ≠ [] → s'.fileHdr.numPages = s.fileHdr.numPages
    ∧ ∃ bytes, s.slot rid = some (false, bytes)
  /-- Only when there is none, a page is added. -/
  alloc : free = [] → s'.fileHdr.numPages = s.fileHdr.numPages + 1
    ∧ rid.pageNo = s.fileHdr.numPages

/-- Putting a record into the free slot of the head of the chain. -/
theorem inserted_head {rest : List Int} (hi : RmInv s (no :: rest))
    (hp : s.store.pages no = some d) :
    ∃ s', s' = (s.setPage no (insertedPage s.fileHdr d (freeSlot s.fileHdr d) buf)).setFirst
        (firstAfterInsert s.fileHdr (insertedPage s.fileHdr d (freeSlot s.fileHdr d) buf))
      ∧ freeSlot s.fileHdr d < s.fileHdr.slotsPerPage
      ∧ (∃ bytes, s.slot ⟨no, freeSlot s.fileHdr d⟩ = some (false, bytes))
      ∧ (∃ free', RmInv s' free')
      ∧ s'.slot = Function.update s.slot ⟨no, freeSlot s.fileHdr d⟩
          (some (true, bytesOf s.fileHdr buf)) := by
  have hl := hi.layout
  have hn := hl.numRecordsPerPage_eq
  have hroom : liveCount s.fileHdr d < s.fileHdr.slotsPerPage := by
    obtain ⟨e, he, hlt⟩ := (hi.mem no).mp List.mem_cons_self
    rw [hp, Option.some.injEq] at he
    rw [← he, hi.counts no d hp] at hlt
    omega
  obtain ⟨hk, hclear⟩ := freeSlot_spec hroom
  refine ⟨_, rfl, hk, ⟨record s.fileHdr d (freeSlot s.fileHdr d), ?_⟩, hi.insert hp hk hclear, ?_⟩
  · rw [slot_of_page hp (Int.natCast_nonneg _)
      (show (freeSlot s.fileHdr d : Int) < s.fileHdr.numRecordsPerPage by omega)]
    simp only [Int.toNat_natCast, hclear]
  · rw [slot_setPage hl hp hk]
    · rw [insertedPage_isSet hl hk, insertedPage_record hl hk hk, if_pos rfl]
      simp
    · intro q hq hqk
      rw [insertedPage_isSet hl hq]
      simp [hqk]
    · intro q hq hqk
      rw [insertedPage_record hl hk hq, if_neg hqk]

/-- **`insert_record`** returns unless the file has the largest number of pages and all are
full. -/
theorem insertRecord_spec (hi : RmInv s free)
    (hroom : free ≠ [] ∨ s.fileHdr.numPages ≠ 2147483647) :
    ∃ rid s', (insertRecord buf).run s = .ok rid s' ∧ Inserted free s buf rid s' := by
  have hl := hi.layout
  have hn := hl.numRecordsPerPage_eq
  have hcounter := hi.counter
  have hpos := hi.pos
  cases free with
  | cons no rest =>
      -- the first page of the chain has a free slot
      obtain ⟨d, hp, _⟩ := (hi.mem no).mp List.mem_cons_self
      obtain ⟨h1, h2, _, hne⟩ := hi.number hp
      obtain ⟨s', rfl, hk, hold, hinv, hslot⟩ := inserted_head hi hp
      refine ⟨_, _, run_insertRecord_free (PageStore.not_refuses hi.enough) hi.chain.of_cons.1 hne hp, ?_⟩
      refine ⟨hinv, rfl, ⟨h1, ?_⟩, ⟨Int.natCast_nonneg _, ?_⟩, ?_, liveRecord_update_live hslot,
        ?_, fun _ => ⟨rfl, hold⟩, fun h => absurd h (by simp)⟩
      · show no < s.fileHdr.numPages
        omega
      · show (freeSlot s.fileHdr d : Int) < s.fileHdr.numRecordsPerPage
        omega
      · exact liveRecord_of_dead hold.choose_spec
      · intro r hr _
        rw [hslot, Function.update_of_ne hr]
  | nil =>
      have hmax : s.fileHdr.numPages ≠ 2147483647 := hroom.resolve_left (by simp)
      have hfirst : s.fileHdr.firstFreePageNo = rmNoPage := by
        by_contra hne
        obtain ⟨_, _, hcons, _⟩ := hi.chain.of_ne hne
        exact absurd hcons (by simp)
      -- no page has one: the file grows, and the new page is the chain
      have hg := hi.grown hmax
      have hp : s.grown.store.pages (s.store.nextPageNo : Int) = some (blankPage s.fileHdr) :=
        Function.update_self ..
      obtain ⟨s', hs', hk, ⟨bytes, hold⟩, hinv, hslot⟩ := inserted_head hg hp
      have hdead := liveRecord_grown hi
      refine ⟨⟨s.store.nextPageNo, freeSlot s.fileHdr (blankPage s.fileHdr)⟩, s', ?_, hinv,
        by rw [hs']; rfl, ?_, ⟨Int.natCast_nonneg _, ?_⟩, ?_, ?_, ?_,
        fun h => absurd rfl h, fun _ => ⟨by rw [hs']; rfl, hcounter.symm⟩⟩
      · rw [hs', run_insertRecord_new (PageStore.exhausted_none hi.enough) hfirst hmax]
        rfl
      · rw [hs']
        show 1 ≤ (s.store.nextPageNo : Int) ∧ (s.store.nextPageNo : Int) < s.fileHdr.numPages + 1
        omega
      · rw [hs']
        show (freeSlot s.fileHdr (blankPage s.fileHdr) : Int) < s.fileHdr.numRecordsPerPage
        have : freeSlot s.fileHdr (blankPage s.fileHdr) < s.fileHdr.slotsPerPage := hk
        omega
      · rw [← hdead]
        exact liveRecord_of_dead hold
      · rw [liveRecord_update_live hslot, hdead]
        rfl
      · intro r hr hsome
        rw [hslot, ← slot_grown hi hsome]
        exact Function.update_of_ne hr ..

/-- An insert that needs one more page than a 32-bit number can count does not return. -/
theorem run_insertRecord_overflow (hi : RmInv s []) (hmax : s.fileHdr.numPages = 2147483647) :
    ∃ t, (insertRecord buf).run s = .error .undefinedBehaviour t := by
  have hfirst : s.fileHdr.firstFreePageNo = rmNoPage := by
    by_contra hne
    obtain ⟨_, _, hcons, _⟩ := hi.chain.of_ne hne
    exact absurd hcons (by simp)
  unfold insertRecord createPageHandle
  rw [bind_assoc, run_get_bind, if_pos hfirst]
  unfold createNewPageHandle
  rw [bind_assoc, run_get_bind, PageStore.newPage_enough hi.enough]
  dsimp only
  rw [bind_assoc, run_set_bind, bind_assoc,
    run_modifyPage_bind (d := zeroPage) (Function.update_self ..), if_pos hmax, run_throw_bind]
  exact ⟨_, rfl⟩

/-- **`get_record`** returns the bytes of a live record. -/
theorem getRecord_spec (hi : RmInv s free) (h : s.liveRecord rid = some bytes) :
    (getRecord rid).run s = .ok bytes s := by
  obtain ⟨d, hp, _, _, _, hb⟩ := liveRecord_eq_some h
  rw [run_getRecord hi.enough hp, hb]

/-- **`update_record`** on a live record replaces its bytes. -/
theorem updateRecord_spec (hi : RmInv s free) (h : s.liveRecord rid = some bytes) :
    ∃ s', (updateRecord rid buf).run s = .ok ⟨⟩ s' ∧ RmInv s' free ∧ s'.fileHdr = s.fileHdr
      ∧ s'.slot = Function.update s.slot rid (some (true, bytesOf s.fileHdr buf)) := by
  obtain ⟨d, hp, h0, h1, hset, _⟩ := liveRecord_eq_some h
  have hl := hi.layout
  have hn := hl.numRecordsPerPage_eq
  have hk : rid.slotNo.toNat < s.fileHdr.slotsPerPage := by omega
  have hrid : (⟨rid.pageNo, rid.slotNo.toNat⟩ : Rid) = rid := by
    rw [Int.toNat_of_nonneg h0]
  refine ⟨_, run_updateRecord hi.enough hp, hi.update hp, rfl, ?_⟩
  refine (slot_setPage hl hp hk ?_ ?_).trans ?_
  · intro q hq _
    exact putRecord_isSet hl hq
  · intro q hq hqk
    rw [record_putRecord hl hk hq, if_neg hqk]
  · rw [hrid, putRecord_isSet hl hk, hset, record_putRecord hl hk hk, if_pos rfl]

/-- **`delete_record`** on a live record clears its bit. -/
theorem deleteRecord_spec (hi : RmInv s free) (h : s.liveRecord rid = some bytes) :
    ∃ s' free', (deleteRecord rid).run s = .ok ⟨⟩ s' ∧ RmInv s' free'
      ∧ s'.fileHdr.recordSize = s.fileHdr.recordSize
      ∧ s'.slot = Function.update s.slot rid (some (false, bytes)) := by
  obtain ⟨d, hp, h0, h1, hset, hb⟩ := liveRecord_eq_some h
  have hl := hi.layout
  have hn := hl.numRecordsPerPage_eq
  have hk : rid.slotNo.toNat < s.fileHdr.slotsPerPage := by omega
  have hrid : (⟨rid.pageNo, rid.slotNo.toNat⟩ : Rid) = rid := by
    rw [Int.toNat_of_nonneg h0]
  obtain ⟨free', hinv⟩ := hi.delete hp hk hset
  refine ⟨_, free', run_deleteRecord hi.enough hp, hinv, ?_, ?_⟩
  · split <;> rfl
  · split
    · refine (slot_setPage hl hp hk ?_ ?_).trans ?_
      · intro q hq hqk
        rw [isSet_setNext hl hq, deletedPage_isSet hl hq]
        simp [hqk]
      · intro q hq _
        rw [record_setNext hl hq, deletedPage_record hl hk hq]
      · rw [hrid, isSet_setNext hl hk, deletedPage_isSet hl hk, record_setNext hl hk,
          deletedPage_record hl hk hk, hb]
        simp
    · refine (slot_setPage hl hp hk ?_ ?_).trans ?_
      · intro q hq hqk
        rw [deletedPage_isSet hl hq]
        simp [hqk]
      · intro q hq _
        exact deletedPage_record hl hk hq
      · rw [hrid, deletedPage_isSet hl hk, deletedPage_record hl hk hk, hb]
        simp

end RmFileHandle

end Rucbase
