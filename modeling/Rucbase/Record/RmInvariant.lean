import Rucbase.Lib.Chain
import Rucbase.Record.RmFileHandle

/-!
# The free-page chain

The pages with room are threaded through their headers, starting at
`file_hdr_.first_free_page_no`. `RmInv s free` says that `free` is that chain, that it holds
exactly the pages with room, and that the counter in every page header is the number of bits
set in its bitmap. One lemma for each change of the file carries it through.
-/

namespace Rucbase

open Lib RmPageHandle

namespace RmFileHandle

variable {h : RmFileHdr} {s : RmFileHandle} {no : Int} {d d' : PageData} {buf : Nat → UInt8}
  {k q : Nat} {free free' : List Int}

/-! ## The pages the calls write -/

theorem insertedPage_next :
    nextFreePageNo (insertedPage h d k buf) = nextFreePageNo d := by
  rw [insertedPage, nextFreePageNo_setNum,
    nextFreePageNo_congr (d := putRecord h d k buf) (fun _ hi => setBit_before hi)]
  refine nextFreePageNo_congr (fun i hi => putRecord_before (lt_of_lt_of_le hi bitmap_le_slots) ?_)
  exact lt_of_lt_of_le hi (by decide)

theorem insertedPage_num (hv : IsInt32 (numRecords d + 1)) :
    numRecords (insertedPage h d k buf) = numRecords d + 1 := by
  have hsame : numRecords (setBit (putRecord h d k buf) k) = numRecords d := by
    rw [numRecords_congr (d := putRecord h d k buf) (fun _ hi => setBit_before hi)]
    refine numRecords_congr (fun i hi => putRecord_before (lt_of_lt_of_le hi bitmap_le_slots) ?_)
    exact lt_of_lt_of_le hi (by decide)
  rw [insertedPage, hsame, numRecords_setNum hv]

theorem putRecord_isSet (hl : h.SoundLayout) (hq : q < h.slotsPerPage) :
    isSet (putRecord h d k buf) q = isSet d q := by
  refine isSet_congr hl hq (fun i _ h2 => putRecord_before h2 ?_)
  exact lt_of_lt_of_le h2 (hl.bit_inside hq).2

theorem insertedPage_isSet (hl : h.SoundLayout) (hq : q < h.slotsPerPage) :
    isSet (insertedPage h d k buf) q = (decide (q = k) || isSet d q) := by
  rw [insertedPage, isSet_setNum hl hq, isSet_setBit hl hq, putRecord_isSet hl hq]

theorem insertedPage_record (hl : h.SoundLayout) (hk : k < h.slotsPerPage)
    (hq : q < h.slotsPerPage) :
    record h (insertedPage h d k buf) q = if q = k then bytesOf h buf else record h d q := by
  rw [insertedPage, record_setNum hl hq, record_setBit hl hk hq, record_putRecord hl hk hq]

theorem deletedPage_next : nextFreePageNo (deletedPage d k) = nextFreePageNo d := by
  rw [deletedPage, nextFreePageNo_setNum]
  exact nextFreePageNo_congr (fun _ hi => resetBit_before hi)

theorem deletedPage_num (hv : IsInt32 (numRecords d - 1)) :
    numRecords (deletedPage d k) = numRecords d - 1 := by
  have hsame : numRecords (resetBit d k) = numRecords d :=
    numRecords_congr (fun _ hi => resetBit_before hi)
  rw [deletedPage, hsame, numRecords_setNum hv]

theorem deletedPage_isSet (hl : h.SoundLayout) (hq : q < h.slotsPerPage) :
    isSet (deletedPage d k) q = (decide (q ≠ k) && isSet d q) := by
  rw [deletedPage, isSet_setNum hl hq, isSet_resetBit hl hq]

theorem deletedPage_record (hl : h.SoundLayout) (hk : k < h.slotsPerPage)
    (hq : q < h.slotsPerPage) : record h (deletedPage d k) q = record h d q := by
  rw [deletedPage, record_setNum hl hq, record_resetBit hl hk hq]

theorem blankPage_num : numRecords (blankPage h) = 0 := by
  rw [blankPage, numRecords_congr (d := setNumRecords (setNextFreePageNo zeroPage rmNoPage) 0)
    (fun _ hi => initBitmap_before hi), numRecords_setNum (by decide)]

theorem blankPage_next : nextFreePageNo (blankPage h) = rmNoPage := by
  rw [blankPage, nextFreePageNo_congr (d := setNumRecords (setNextFreePageNo zeroPage rmNoPage) 0)
    (fun _ hi => initBitmap_before hi), nextFreePageNo_setNum, nextFreePageNo_setNext (by decide)]

/-- How many records a page holds by its bitmap. -/
def liveCount (h : RmFileHdr) (d : PageData) : Nat := Bitmap.count d.toBuf bitmap h.slotsPerPage

theorem liveCount_le : liveCount h d ≤ h.slotsPerPage := Bitmap.count_le

theorem liveCount_congr (hd : ∀ q, q < h.slotsPerPage → isSet d' q = isSet d q) :
    liveCount h d' = liveCount h d := Bitmap.count_congr hd

theorem liveCount_inserted (hl : h.SoundLayout) (hk : k < h.slotsPerPage)
    (hclear : isSet d k = false) : liveCount h (insertedPage h d k buf) = liveCount h d + 1 :=
  Bitmap.count_of_insert hk hclear (fun _ hq => insertedPage_isSet hl hq)

theorem liveCount_deleted (hl : h.SoundLayout) (hk : k < h.slotsPerPage)
    (hset : isSet d k = true) : liveCount h d = liveCount h (deletedPage d k) + 1 := by
  refine Bitmap.count_of_insert hk ?_ (fun q hq => ?_)
  · show isSet (deletedPage d k) k = false
    rw [deletedPage_isSet hl hk]
    simp
  · show isSet d q = (decide (q = k) || isSet (deletedPage d k) q)
    rw [deletedPage_isSet hl hq]
    by_cases hqk : q = k
    · simp [hqk, hset]
    · simp [hqk]

theorem blankPage_isSet (hl : h.SoundLayout) (hq : q < h.slotsPerPage) :
    isSet (blankPage h) q = false := isSet_initBitmap hl hq

theorem liveCount_blank (hl : h.SoundLayout) : liveCount h (blankPage h) = 0 := by
  refine Nat.count_iff_forall_not.mpr (fun q hq => ?_)
  have : isSet (blankPage h) q = false := blankPage_isSet hl hq
  exact Bool.eq_false_iff.mp this

/-- **A page with room has a clear bit**, and `first_bit` finds one. -/
theorem freeSlot_spec (hroom : liveCount h d < h.slotsPerPage) :
    freeSlot h d < h.slotsPerPage ∧ isSet d (freeSlot h d) = false :=
  Bitmap.firstBit_spec (Bitmap.count_lt_iff.mp hroom)

/-! ## The invariant -/

/-- Where the free chain goes on after page `no`. -/
def link (s : RmFileHandle) (no : Int) : Option Int := (s.store.pages no).map nextFreePageNo

structure RmInv (s : RmFileHandle) (free : List Int) : Prop where
  layout : s.fileHdr.SoundLayout
  enough : s.store.frames = none
  /-- The allocation counter is the number of pages. -/
  counter : s.fileHdr.numPages = s.store.nextPageNo
  pos : 1 ≤ s.store.nextPageNo
  bounded : s.store.nextPageNo ≤ 2147483647
  present : ∀ no, (s.store.pages no).isSome ↔ 1 ≤ no ∧ no < s.store.nextPageNo
  counts : ∀ no d, s.store.pages no = some d → numRecords d = liveCount s.fileHdr d
  chain : Chain s.link rmNoPage s.fileHdr.firstFreePageNo free
  nodup : free.Nodup
  /-- The chain holds the pages with room. -/
  mem : ∀ no, no ∈ free ↔
    ∃ d, s.store.pages no = some d ∧ numRecords d < s.fileHdr.numRecordsPerPage

theorem link_setPage (s : RmFileHandle) (no : Int) (d : PageData) (p : Int) :
    (s.setPage no d).link p = if p = no then some (nextFreePageNo d) else s.link p := by
  unfold link setPage PageStore.setPage
  by_cases hp : p = no
  · subst hp
    rw [if_pos rfl]
    dsimp only
    rw [Function.update_self]
    rfl
  · rw [if_neg hp]
    dsimp only
    rw [Function.update_of_ne hp]

namespace RmInv

/-- A page that is there has a number that fits 32 bits, and is not `RM_NO_PAGE`. -/
theorem number (hi : RmInv s free) (hp : s.store.pages no = some d) :
    1 ≤ no ∧ no < s.store.nextPageNo ∧ IsInt32 no ∧ no ≠ rmNoPage := by
  obtain ⟨h1, h2⟩ := (hi.present no).mp (by rw [hp]; rfl)
  have h3 := hi.bounded
  refine ⟨h1, h2, ?_, ?_⟩
  · unfold IsInt32
    omega
  · unfold rmNoPage
    omega

theorem num_bounds (hi : RmInv s free) (hp : s.store.pages no = some d) :
    0 ≤ numRecords d ∧ numRecords d ≤ s.fileHdr.numRecordsPerPage
      ∧ s.fileHdr.numRecordsPerPage ≤ 3622 := by
  have h1 := hi.counts no d hp
  have h2 := liveCount_le (h := s.fileHdr) (d := d)
  have h3 := hi.layout.numRecordsPerPage_eq
  have h4 := hi.layout.slotsPerPage_bounds
  omega

/-- The head of the chain is a page number or `RM_NO_PAGE`. -/
theorem first_isInt32 (hi : RmInv s free) : IsInt32 s.fileHdr.firstFreePageNo := by
  by_cases hne : s.fileHdr.firstFreePageNo = rmNoPage
  · rw [hne]
    decide
  · obtain ⟨b, l, rfl, _, _⟩ := hi.chain.of_ne hne
    obtain ⟨d, hp, _⟩ := (hi.mem _).mp List.mem_cons_self
    exact (hi.number hp).2.2.1

/-- **Replacing one page** and the head of the chain. -/
theorem replace (hi : RmInv s free) (hp : s.store.pages no = some d)
    (hcount : numRecords d' = liveCount s.fileHdr d') {first : Int}
    (hchain : Chain (s.setPage no d').link rmNoPage first free') (hnodup : free'.Nodup)
    (hmem : ∀ p, p ∈ free' ↔
      if p = no then numRecords d' < s.fileHdr.numRecordsPerPage else p ∈ free) :
    RmInv ((s.setPage no d').setFirst first) free' := by
  have hpages : ∀ p, ((s.setPage no d').setFirst first).store.pages p
      = if p = no then some d' else s.store.pages p := by
    intro p
    show Function.update s.store.pages no (some d') p = _
    by_cases hpn : p = no
    · rw [hpn, Function.update_self, if_pos rfl]
    · rw [Function.update_of_ne hpn, if_neg hpn]
  refine ⟨⟨hi.layout.one_le, hi.layout.le_max, hi.layout.perPage, hi.layout.bitmap⟩, hi.enough,
    hi.counter, hi.pos, hi.bounded, ?_, ?_, hchain, hnodup, ?_⟩
  · intro p
    rw [hpages]
    by_cases hpn : p = no
    · have := (hi.present no).mp (by rw [hp]; rfl)
      simp only [hpn, if_true, Option.isSome_some, true_iff]
      exact this
    · rw [if_neg hpn]
      exact hi.present p
  · intro p e hpe
    rw [hpages] at hpe
    by_cases hpn : p = no
    · rw [if_pos hpn, Option.some.injEq] at hpe
      exact hpe ▸ hcount
    · rw [if_neg hpn] at hpe
      exact hi.counts p e hpe
  · intro p
    rw [hmem, hpages]
    show _ ↔ ∃ e, _ ∧ numRecords e < s.fileHdr.numRecordsPerPage
    by_cases hpn : p = no
    · simp [hpn]
    · simp only [if_neg hpn]
      exact hi.mem p

/-- **Insert on the head of the chain.** A page that becomes full leaves the chain. -/
theorem insert {rest : List Int} (hi : RmInv s (no :: rest)) (hp : s.store.pages no = some d)
    (hk : k < s.fileHdr.slotsPerPage) (hclear : isSet d k = false) :
    ∃ free', RmInv ((s.setPage no (insertedPage s.fileHdr d k buf)).setFirst
      (firstAfterInsert s.fileHdr (insertedPage s.fileHdr d k buf))) free' := by
  have hl := hi.layout
  obtain ⟨hn0, hn1, hn2⟩ := hi.num_bounds hp
  have hnum : numRecords (insertedPage s.fileHdr d k buf) = numRecords d + 1 :=
    insertedPage_num (by unfold IsInt32; omega)
  have hcount : numRecords (insertedPage s.fileHdr d k buf)
      = liveCount s.fileHdr (insertedPage s.fileHdr d k buf) := by
    rw [hnum, liveCount_inserted hl hk hclear, hi.counts no d hp]
    omega
  have hroom : numRecords d < s.fileHdr.numRecordsPerPage := by
    obtain ⟨e, he, hlt⟩ := (hi.mem no).mp List.mem_cons_self
    rw [hp, Option.some.injEq] at he
    exact he ▸ hlt
  obtain ⟨hnot, hrest⟩ := List.nodup_cons.mp hi.nodup
  -- the links behind the head are not touched
  have hlinks : ∀ p ∈ rest, (s.setPage no (insertedPage s.fileHdr d k buf)).link p = s.link p := by
    intro p hpm
    rw [link_setPage, if_neg (ne_of_mem_of_not_mem hpm hnot)]
  obtain ⟨_, b, hlink, htail⟩ := hi.chain.of_cons
  have hb : b = nextFreePageNo d := by
    rw [link, hp, Option.map_some, Option.some.injEq] at hlink
    exact hlink.symm
  unfold firstAfterInsert
  by_cases hfull : numRecords (insertedPage s.fileHdr d k buf) = s.fileHdr.numRecordsPerPage
  · refine ⟨rest, hi.replace hp hcount ?_ hrest ?_⟩
    · rw [if_pos hfull, insertedPage_next, ← hb]
      exact htail.congr hlinks
    · intro p
      by_cases hpn : p = no
      · rw [if_pos hpn, hpn]
        exact ⟨fun h => absurd h hnot, fun h => by omega⟩
      · rw [if_neg hpn, List.mem_cons, or_iff_right hpn]
  · refine ⟨no :: rest, hi.replace hp hcount ?_ hi.nodup ?_⟩
    · rw [if_neg hfull]
      refine hi.chain.congr (fun p hpm => ?_)
      rw [link_setPage]
      by_cases hpn : p = no
      · rw [if_pos hpn, insertedPage_next, hpn, link, hp]
        rfl
      · rw [if_neg hpn]
    · intro p
      by_cases hpn : p = no
      · rw [if_pos hpn, hpn]
        exact ⟨fun _ => by omega, fun _ => List.mem_cons_self⟩
      · rw [if_neg hpn]

/-- **A new page** becomes the whole chain. It is only made when the chain is empty. -/
theorem grown (hi : RmInv s []) (hmax : s.fileHdr.numPages ≠ 2147483647) :
    RmInv s.grown [(s.store.nextPageNo : Int)] := by
  have hl := hi.layout
  -- one page more, and it is blank
  have hpages : ∀ p, s.grown.store.pages p
      = if p = (s.store.nextPageNo : Int) then some (blankPage s.fileHdr) else s.store.pages p := by
    intro p
    show Function.update s.store.pages _ _ p = _
    by_cases hpn : p = (s.store.nextPageNo : Int)
    · rw [hpn, Function.update_self, if_pos rfl]
    · rw [Function.update_of_ne hpn, if_neg hpn]
  have hroom : numRecords (blankPage s.fileHdr) < s.fileHdr.numRecordsPerPage := by
    have h1 := hl.slotsPerPage_bounds
    rw [blankPage_num, hl.numRecordsPerPage_eq]
    omega
  have hcounter := hi.counter
  have hpos := hi.pos
  have hbounded := hi.bounded
  refine ⟨⟨hl.one_le, hl.le_max, hl.perPage, hl.bitmap⟩, hi.enough, ?_, ?_, ?_, ?_, ?_, ?_,
    List.nodup_singleton _, ?_⟩
  · show s.fileHdr.numPages + 1 = ((s.store.nextPageNo + 1 : Nat) : Int)
    omega
  · show 1 ≤ s.store.nextPageNo + 1
    omega
  · show s.store.nextPageNo + 1 ≤ 2147483647
    omega
  · intro p
    show _ ↔ 1 ≤ p ∧ p < ((s.store.nextPageNo + 1 : Nat) : Int)
    rw [hpages]
    by_cases hpn : p = (s.store.nextPageNo : Int)
    · rw [if_pos hpn, Option.isSome_some]
      exact ⟨fun _ => by omega, fun _ => rfl⟩
    · rw [if_neg hpn, hi.present]
      omega
  · intro p e hpe
    rw [hpages] at hpe
    by_cases hpn : p = (s.store.nextPageNo : Int)
    · rw [if_pos hpn, Option.some.injEq] at hpe
      rw [← hpe, blankPage_num]
      exact (Nat.cast_eq_zero.mpr (liveCount_blank hl)).symm
    · rw [if_neg hpn] at hpe
      exact hi.counts p e hpe
  · show Chain s.grown.link rmNoPage (s.store.nextPageNo : Int) _
    refine .cons (by unfold rmNoPage; omega) ?_ .nil
    rw [link, hpages, if_pos rfl, Option.map_some, blankPage_next]
  · intro p
    rw [List.mem_singleton, hpages]
    show _ ↔ ∃ e, _ ∧ numRecords e < s.fileHdr.numRecordsPerPage
    by_cases hpn : p = (s.store.nextPageNo : Int)
    · simp [hpn, hroom]
    · rw [if_neg hpn, ← hi.mem p]
      simp [hpn]

/-- **Delete.** A page that was full becomes the head of the chain. -/
theorem delete (hi : RmInv s free) (hp : s.store.pages no = some d)
    (hk : k < s.fileHdr.slotsPerPage) (hset : isSet d k = true) :
    ∃ free', RmInv (if numRecords (deletedPage d k) = s.fileHdr.numRecordsPerPage - 1 then
        (s.setPage no (setNextFreePageNo (deletedPage d k) s.fileHdr.firstFreePageNo)).setFirst no
      else s.setPage no (deletedPage d k)) free' := by
  have hl := hi.layout
  obtain ⟨hn0, hn1, hn2⟩ := hi.num_bounds hp
  have hnum : numRecords (deletedPage d k) = numRecords d - 1 :=
    deletedPage_num (by unfold IsInt32; omega)
  have hlive := liveCount_deleted hl hk hset
  have hold := hi.counts no d hp
  have hcount : numRecords (deletedPage d k) = liveCount s.fileHdr (deletedPage d k) := by omega
  obtain ⟨_, _, hno32, hno⟩ := hi.number hp
  by_cases hfull : numRecords (deletedPage d k) = s.fileHdr.numRecordsPerPage - 1
  · -- the page was full, so it was not on the chain
    have hnot : no ∉ free := by
      intro hmem
      obtain ⟨e, he, hlt⟩ := (hi.mem no).mp hmem
      rw [hp, Option.some.injEq] at he
      rw [← he] at hlt
      omega
    refine ⟨no :: free, ?_⟩
    rw [if_pos hfull]
    refine hi.replace hp ?_ ?_ (List.nodup_cons.mpr ⟨hnot, hi.nodup⟩) ?_
    · rw [numRecords_setNext, hcount, liveCount_congr (fun q hq => isSet_setNext hl hq)]
    · refine .cons hno ?_ (hi.chain.congr (fun p hpm => ?_))
      · rw [link_setPage, if_pos rfl, nextFreePageNo_setNext hi.first_isInt32]
      · rw [link_setPage, if_neg (ne_of_mem_of_not_mem hpm hnot)]
    · intro p
      by_cases hpn : p = no
      · rw [if_pos hpn, numRecords_setNext, hpn]
        exact ⟨fun _ => by omega, fun _ => List.mem_cons_self⟩
      · rw [if_neg hpn, List.mem_cons, or_iff_right hpn]
  · -- the page had room, so it stays where it is on the chain
    refine ⟨free, ?_⟩
    rw [if_neg hfull]
    refine hi.replace hp hcount ?_ hi.nodup ?_
    · refine hi.chain.congr (fun p hpm => ?_)
      rw [link_setPage]
      by_cases hpn : p = no
      · rw [if_pos hpn, deletedPage_next, hpn, link, hp]
        rfl
      · rw [if_neg hpn]
    · intro p
      by_cases hpn : p = no
      · rw [if_pos hpn, hpn, hi.mem no]
        refine ⟨fun _ => by omega, fun _ => ⟨d, hp, by omega⟩⟩
      · rw [if_neg hpn]

/-- **Update** touches one slot. -/
theorem update (hi : RmInv s free) (hp : s.store.pages no = some d) :
    RmInv (s.setPage no (putRecord s.fileHdr d k buf)) free := by
  have hl := hi.layout
  have hhdr : ∀ i, i < bitmap → (putRecord s.fileHdr d k buf).toBuf i = d.toBuf i := by
    intro i hib
    exact putRecord_before (lt_of_lt_of_le hib bitmap_le_slots) (lt_of_lt_of_le hib (by decide))
  have hnum := numRecords_congr hhdr
  have hcount : numRecords (putRecord s.fileHdr d k buf)
      = liveCount s.fileHdr (putRecord s.fileHdr d k buf) := by
    rw [hnum, hi.counts no d hp, liveCount_congr (fun q hq => putRecord_isSet hl hq)]
  refine hi.replace hp hcount ?_ hi.nodup ?_
  · refine hi.chain.congr (fun p hpm => ?_)
    rw [link_setPage]
    by_cases hpn : p = no
    · rw [if_pos hpn, nextFreePageNo_congr hhdr, hpn, link, hp]
      rfl
    · rw [if_neg hpn]
  · intro p
    by_cases hpn : p = no
    · rw [if_pos hpn, hnum, hpn, hi.mem no, hp]
      simp
    · rw [if_neg hpn]

end RmInv

end RmFileHandle

end Rucbase
