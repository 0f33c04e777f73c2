import Rucbase.Record.Bitmap
import Rucbase.Record.RmManager

/-!
# A page of records

`RmPageHandle`: where the header, the bitmap and the slots lie in the 4096 bytes of a page,
and how they are read and written through casts and `memcpy`. The layout is computed from the
record size when the file is created; `SoundLayout` is what the rest needs of it. Every write
is inverted once: which header fields, which bits and which slots it changes.
-/

namespace Rucbase

open Lib

namespace RmFileHdr

/-- The layout `create_file` computes for the record sizes it accepts. -/
structure SoundLayout (h : RmFileHdr) : Prop where
  one_le : 1 ≤ h.recordSize
  le_max : h.recordSize ≤ rmMaxRecordSize
  perPage : h.numRecordsPerPage = recordsPerPage h.recordSize.toNat
  bitmap : h.bitmapSize
    = ((recordsPerPage h.recordSize.toNat + bitmapWidth - 1) / bitmapWidth : Nat)

/-- `num_records_per_page`, as a count. -/
def slotsPerPage (h : RmFileHdr) : Nat := h.numRecordsPerPage.toNat

end RmFileHdr

namespace RmPageHandle

/-- Offset of `page_hdr`: `OFFSET_PAGE_HDR`. -/
def offsetPageHdr : Nat := 4

/-- Offset of `bitmap`: behind the eight bytes of `RmPageHdr`. -/
def bitmap : Nat := 8 + offsetPageHdr

/-- Offset of `slots`. -/
def slots (h : RmFileHdr) : Nat := bitmap + h.bitmapSize.toNat

/-- `get_slot`, as an offset. -/
def getSlot (h : RmFileHdr) (slotNo : Nat) : Nat := slots h + slotNo * h.recordSize.toNat

/-- `page_hdr->next_free_page_no`. -/
def nextFreePageNo (d : PageData) : Int := int32At d.toBuf offsetPageHdr

/-- `page_hdr->num_records`. -/
def numRecords (d : PageData) : Int := int32At d.toBuf (offsetPageHdr + 4)

/-- `Bitmap::is_set(bitmap, slot_no)`. -/
def isSet (d : PageData) (slotNo : Nat) : Bool := Bitmap.isSet d.toBuf bitmap slotNo

/-- The bytes of a record, as `RmRecord` copies them out. -/
def record (h : RmFileHdr) (d : PageData) (slotNo : Nat) : List UInt8 :=
  (List.range h.recordSize.toNat).map fun i => d.toBuf (getSlot h slotNo + i)

/-- A change of the page's memory. -/
def edit (d : PageData) (f : (Nat → UInt8) → Nat → UInt8) : PageData := .ofBuf (f d.toBuf)

/-- `page_hdr->next_free_page_no = v`. -/
def setNextFreePageNo (d : PageData) (v : Int) : PageData := edit d (putInt32 · offsetPageHdr v)

/-- `page_hdr->num_records = v`. -/
def setNumRecords (d : PageData) (v : Int) : PageData := edit d (putInt32 · (offsetPageHdr + 4) v)

/-- `Bitmap::set(bitmap, slot_no)`. -/
def setBit (d : PageData) (slotNo : Nat) : PageData := edit d (Bitmap.set · bitmap slotNo)

/-- `Bitmap::reset(bitmap, slot_no)`. -/
def resetBit (d : PageData) (slotNo : Nat) : PageData := edit d (Bitmap.reset · bitmap slotNo)

/-- `Bitmap::init(bitmap, bitmap_size)`. -/
def initBitmap (h : RmFileHdr) (d : PageData) : PageData :=
  edit d (Bitmap.init · bitmap h.bitmapSize.toNat)

/-- `memcpy(get_slot(slot_no), buf, record_size)`. -/
def putRecord (h : RmFileHdr) (d : PageData) (slotNo : Nat) (buf : Nat → UInt8) : PageData :=
  edit d (memcpy · (getSlot h slotNo) buf h.recordSize.toNat)

end RmPageHandle

/-! ## The layout fits a page -/

namespace RmFileHdr.SoundLayout

variable {h : RmFileHdr}

theorem initial {recordSize : Int} (h1 : 1 ≤ recordSize) (h2 : recordSize ≤ rmMaxRecordSize) :
    SoundLayout (.initial recordSize) := ⟨h1, h2, rfl, rfl⟩

theorem slotsPerPage_eq (hl : SoundLayout h) :
    h.slotsPerPage = recordsPerPage h.recordSize.toNat := by
  rw [slotsPerPage, hl.perPage, Int.toNat_natCast]

theorem numRecordsPerPage_eq (hl : SoundLayout h) : h.numRecordsPerPage = h.slotsPerPage := by
  rw [slotsPerPage_eq hl, hl.perPage]

theorem bitmapSize_eq (hl : SoundLayout h) : h.bitmapSize.toNat = (h.slotsPerPage + 7) / 8 := by
  rw [hl.bitmap, Int.toNat_natCast, slotsPerPage_eq hl]
  rfl

/-- A page has room for a slot, and for not more than its bits. -/
theorem slotsPerPage_bounds (hl : SoundLayout h) :
    1 ≤ h.slotsPerPage ∧ h.slotsPerPage ≤ 3622 := by
  have h1 := hl.one_le
  have h2 := hl.le_max
  unfold rmMaxRecordSize at h2
  rw [slotsPerPage_eq hl]
  unfold recordsPerPage bitmapWidth pageSize size
  generalize hr : h.recordSize.toNat = r
  have hr1 : 1 ≤ r := by omega
  have hr2 : r ≤ 512 := by omega
  constructor
  · exact (Nat.le_div_iff_mul_le (by omega)).mpr (by omega)
  · exact (Nat.div_le_div_left (show 9 ≤ 1 + r * 8 by omega) (by decide)).trans (by decide)

/-- **Header, bitmap and slots fit the page.** -/
theorem fits (hl : SoundLayout h) :
    RmPageHandle.getSlot h h.slotsPerPage ≤ pageSize := by
  have hn : h.slotsPerPage * (1 + h.recordSize.toNat * 8) ≤ 32601 := by
    rw [slotsPerPage_eq hl]
    exact Nat.div_mul_le_self _ _
  have hprod : h.slotsPerPage * (1 + h.recordSize.toNat * 8)
      = h.slotsPerPage + 8 * (h.slotsPerPage * h.recordSize.toNat) := by
    rw [Nat.mul_add, Nat.mul_one, Nat.mul_left_comm 8, Nat.mul_comm 8]
  unfold RmPageHandle.getSlot RmPageHandle.slots RmPageHandle.bitmap RmPageHandle.offsetPageHdr pageSize
  rw [bitmapSize_eq hl]
  omega

/-- The slots lie one after the other. -/
theorem getSlot_succ (k : Nat) :
    RmPageHandle.getSlot h (k + 1) = RmPageHandle.getSlot h k + h.recordSize.toNat := by
  unfold RmPageHandle.getSlot
  rw [Nat.succ_mul]
  omega

theorem getSlot_mono {k l : Nat} (hkl : k ≤ l) :
    RmPageHandle.getSlot h k ≤ RmPageHandle.getSlot h l := by
  unfold RmPageHandle.getSlot
  have := Nat.mul_le_mul_right h.recordSize.toNat hkl
  omega

/-- A slot lies behind the bitmap and inside the page. -/
theorem slot_inside (hl : SoundLayout h) {k i : Nat} (hk : k < h.slotsPerPage)
    (hi : i < h.recordSize.toNat) :
    RmPageHandle.slots h ≤ RmPageHandle.getSlot h k + i
      ∧ RmPageHandle.getSlot h k + i < pageSize := by
  have h1 : RmPageHandle.getSlot h (k + 1) ≤ RmPageHandle.getSlot h h.slotsPerPage := getSlot_mono hk
  rw [getSlot_succ] at h1
  have h2 := hl.fits
  have h3 : RmPageHandle.slots h ≤ RmPageHandle.getSlot h k := Nat.le_add_right _ _
  omega

/-- Different slots do not overlap. -/
theorem slot_disjoint {k l i : Nat} (hkl : k ≠ l) (hi : i < h.recordSize.toNat) :
    RmPageHandle.getSlot h k + i < RmPageHandle.getSlot h l
      ∨ RmPageHandle.getSlot h l + h.recordSize.toNat ≤ RmPageHandle.getSlot h k + i := by
  rcases Nat.lt_or_gt_of_ne hkl with hlt | hgt
  · have h1 : RmPageHandle.getSlot h (k + 1) ≤ RmPageHandle.getSlot h l := getSlot_mono hlt
    rw [getSlot_succ] at h1
    omega
  · have h1 : RmPageHandle.getSlot h (l + 1) ≤ RmPageHandle.getSlot h k := getSlot_mono hgt
    rw [getSlot_succ] at h1
    omega

/-- The bit of a slot lies in the bitmap. -/
theorem bit_inside (hl : SoundLayout h) {k : Nat} (hk : k < h.slotsPerPage) :
    RmPageHandle.bitmap + Bitmap.getBucket k < RmPageHandle.slots h
      ∧ RmPageHandle.slots h ≤ pageSize := by
  have h2 := hl.fits
  have h3 : RmPageHandle.slots h ≤ RmPageHandle.getSlot h h.slotsPerPage := Nat.le_add_right _ _
  refine ⟨?_, by omega⟩
  unfold RmPageHandle.slots Bitmap.getBucket
  rw [bitmapSize_eq hl]
  omega

end RmFileHdr.SoundLayout

/-! ## What is read after a write -/

namespace RmPageHandle

variable {h : RmFileHdr} {d d' : PageData} {f : (Nat → UInt8) → Nat → UInt8} {k q : Nat}

theorem edit_toBuf {i : Nat} (hi : i < pageSize) : (edit d f).toBuf i = f d.toBuf i := by
  rw [edit, PageData.toBuf, dif_pos hi]
  rfl

theorem nextFreePageNo_congr (hd : ∀ i, i < bitmap → d'.toBuf i = d.toBuf i) :
    nextFreePageNo d' = nextFreePageNo d :=
  int32At_congr (fun k hk => hd _ (by unfold offsetPageHdr bitmap; omega))

theorem numRecords_congr (hd : ∀ i, i < bitmap → d'.toBuf i = d.toBuf i) :
    numRecords d' = numRecords d :=
  int32At_congr (fun k hk => hd _ (by unfold offsetPageHdr bitmap offsetPageHdr; omega))

theorem isSet_congr (hl : h.SoundLayout) (hk : k < h.slotsPerPage)
    (hd : ∀ i, bitmap ≤ i → i < slots h → d'.toBuf i = d.toBuf i) : isSet d' k = isSet d k :=
  Bitmap.isSet_congr (hd _ (Nat.le_add_right _ _) (hl.bit_inside hk).1)

theorem record_congr (hl : h.SoundLayout) (hk : k < h.slotsPerPage)
    (hd : ∀ i, slots h ≤ i → i < pageSize → d'.toBuf i = d.toBuf i) :
    record h d' k = record h d k := by
  unfold record
  refine List.map_congr_left (fun i hi => ?_)
  obtain ⟨h1, h2⟩ := hl.slot_inside hk (List.mem_range.mp hi)
  exact hd _ h1 h2

theorem bitmap_le_slots : bitmap ≤ slots h := Nat.le_add_right _ _

/-! ### The header fields -/

/-- A write of one header field leaves bitmap and slots alone. -/
theorem setInt_behind {off i : Nat} {v : Int} (hoff : off + 4 ≤ bitmap) (hi : bitmap ≤ i)
    (hp : i < pageSize) : (edit d (putInt32 · off v)).toBuf i = d.toBuf i := by
  rw [edit_toBuf hp]
  exact memcpy_apply_of_not (by omega)

theorem int32At_edit {off : Nat} (hoff : off + 4 ≤ pageSize) :
    int32At (edit d f).toBuf off = int32At (f d.toBuf) off :=
  int32At_congr (fun k hk => edit_toBuf (by omega))

theorem nextFreePageNo_setNext {v : Int} (hv : IsInt32 v) :
    nextFreePageNo (setNextFreePageNo d v) = v := by
  rw [nextFreePageNo, setNextFreePageNo, int32At_edit (by decide), int32At_putInt32 hv]

theorem numRecords_setNext {v : Int} : numRecords (setNextFreePageNo d v) = numRecords d := by
  rw [numRecords, setNextFreePageNo, int32At_edit (by decide),
    int32At_putInt32_of_disjoint (.inr le_rfl)]
  rfl

theorem numRecords_setNum {v : Int} (hv : IsInt32 v) : numRecords (setNumRecords d v) = v := by
  rw [numRecords, setNumRecords, int32At_edit (by decide), int32At_putInt32 hv]

theorem nextFreePageNo_setNum {v : Int} :
    nextFreePageNo (setNumRecords d v) = nextFreePageNo d := by
  rw [nextFreePageNo, setNumRecords, int32At_edit (by decide),
    int32At_putInt32_of_disjoint (.inl le_rfl)]
  rfl

theorem isSet_setNext {v : Int} (hl : h.SoundLayout) (hk : k < h.slotsPerPage) :
    isSet (setNextFreePageNo d v) k = isSet d k :=
  isSet_congr hl hk (fun i h1 h2 => setInt_behind (by decide) h1
    (lt_of_lt_of_le h2 (hl.bit_inside hk).2))

theorem isSet_setNum {v : Int} (hl : h.SoundLayout) (hk : k < h.slotsPerPage) :
    isSet (setNumRecords d v) k = isSet d k :=
  isSet_congr hl hk (fun i h1 h2 => setInt_behind (by decide) h1
    (lt_of_lt_of_le h2 (hl.bit_inside hk).2))

theorem record_setNext {v : Int} (hl : h.SoundLayout) (hk : k < h.slotsPerPage) :
    record h (setNextFreePageNo d v) k = record h d k :=
  record_congr hl hk (fun i h1 h2 => setInt_behind (by decide) (bitmap_le_slots.trans h1) h2)

theorem record_setNum {v : Int} (hl : h.SoundLayout) (hk : k < h.slotsPerPage) :
    record h (setNumRecords d v) k = record h d k :=
  record_congr hl hk (fun i h1 h2 => setInt_behind (by decide) (bitmap_le_slots.trans h1) h2)

/-! ### The bitmap -/

theorem isSet_edit (hl : h.SoundLayout) (hq : q < h.slotsPerPage) :
    isSet (edit d f) q = Bitmap.isSet (f d.toBuf) bitmap q := by
  obtain ⟨h1, h2⟩ := hl.bit_inside hq
  exact Bitmap.isSet_congr (edit_toBuf (by omega))

theorem isSet_setBit (hl : h.SoundLayout) (hq : q < h.slotsPerPage) :
    isSet (setBit d k) q = (decide (q = k) || isSet d q) := by
  rw [setBit, isSet_edit hl hq, Bitmap.isSet_set]
  rfl

theorem isSet_resetBit (hl : h.SoundLayout) (hq : q < h.slotsPerPage) :
    isSet (resetBit d k) q = (decide (q ≠ k) && isSet d q) := by
  rw [resetBit, isSet_edit hl hq, Bitmap.isSet_reset]
  rfl

theorem isSet_initBitmap (hl : h.SoundLayout) (hq : q < h.slotsPerPage) :
    isSet (initBitmap h d) q = false := by
  rw [initBitmap, isSet_edit hl hq]
  refine Bitmap.isSet_init ?_
  have := (hl.bit_inside hq).1
  unfold slots at this
  omega

theorem setBit_before {i : Nat} (hi : i < bitmap) : (setBit d k).toBuf i = d.toBuf i := by
  rw [setBit, edit_toBuf (lt_of_lt_of_le hi (by decide))]
  exact Function.update_of_ne (by omega) ..

theorem resetBit_before {i : Nat} (hi : i < bitmap) : (resetBit d k).toBuf i = d.toBuf i := by
  rw [resetBit, edit_toBuf (lt_of_lt_of_le hi (by decide))]
  exact Function.update_of_ne (by omega) ..

theorem initBitmap_before {i : Nat} (hi : i < bitmap) : (initBitmap h d).toBuf i = d.toBuf i := by
  rw [initBitmap, edit_toBuf (lt_of_lt_of_le hi (by decide))]
  exact if_neg (by omega)

theorem record_setBit (hl : h.SoundLayout) (hk : k < h.slotsPerPage) (hq : q < h.slotsPerPage) :
    record h (setBit d k) q = record h d q := by
  refine record_congr hl hq (fun i h1 h2 => ?_)
  have := (hl.bit_inside hk).1
  rw [setBit, edit_toBuf h2]
  exact Function.update_of_ne (by omega) ..

theorem record_resetBit (hl : h.SoundLayout) (hk : k < h.slotsPerPage) (hq : q < h.slotsPerPage) :
    record h (resetBit d k) q = record h d q := by
  refine record_congr hl hq (fun i h1 h2 => ?_)
  have := (hl.bit_inside hk).1
  rw [resetBit, edit_toBuf h2]
  exact Function.update_of_ne (by omega) ..

/-! ### The slots -/

/-- The bytes `memcpy` takes from a record buffer. -/
def bytesOf (h : RmFileHdr) (buf : Nat → UInt8) : List UInt8 :=
  (List.range h.recordSize.toNat).map buf

theorem putRecord_before {buf : Nat → UInt8} {i : Nat} (hi : i < slots h) (hp : i < pageSize) :
    (putRecord h d k buf).toBuf i = d.toBuf i := by
  rw [putRecord, edit_toBuf hp]
  refine memcpy_apply_of_not (.inl ?_)
  have : slots h ≤ getSlot h k := Nat.le_add_right _ _
  omega

theorem record_putRecord {buf : Nat → UInt8} (hl : h.SoundLayout) (hk : k < h.slotsPerPage)
    (hq : q < h.slotsPerPage) :
    record h (putRecord h d k buf) q = if q = k then bytesOf h buf else record h d q := by
  by_cases hqk : q = k
  · subst hqk
    rw [if_pos rfl]
    refine List.map_congr_left (fun i hi => ?_)
    have hi' := List.mem_range.mp hi
    rw [putRecord, edit_toBuf (hl.slot_inside hq hi').2,
      memcpy_apply_of_mem (by omega) (by omega), Nat.add_sub_cancel_left]
  · rw [if_neg hqk]
    refine List.map_congr_left (fun i hi => ?_)
    have hi' := List.mem_range.mp hi
    rw [putRecord, edit_toBuf (hl.slot_inside hq hi').2]
    exact memcpy_apply_of_not (RmFileHdr.SoundLayout.slot_disjoint hqk hi')

end RmPageHandle

end Rucbase
