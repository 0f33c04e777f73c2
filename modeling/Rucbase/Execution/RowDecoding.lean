import Rucbase.Execution.ExecutionManager

/-!
# Rows as dictionaries

`rec2dict` of `execution/executor_abstract.h` takes a row apart into one value for each column, and
encodes each value again. A join feeds these values to the scan of its right side, which compares
their bytes; so a value read from bytes that `init_raw` made has to be the value they were made
from, and has to give the same bytes again.
-/

namespace Rucbase

open Lib

/-- The value that the bytes at `p` stand for in a column. -/
def ColMeta.decode (c : ColMeta) (p : Nat → UInt8) : Value :=
  match c.type with
  | .typeInt => .setInt (.ofInt (int32At p 0))
  | .typeFloat => .setFloat (.ofInt (int32At p 0))
  | .typeString => .setStr ((firstBytes p c.len.toNat).takeWhile (· ≠ 0))

/-- The loop of `rec2dict`. `heap key` is what memory holds where the value of column `key` gets its
buffer. -/
def rec2dictFrom (heap : TabCol → Nat → UInt8) (rec : RmRecord) :
    List ColMeta → Std.TreeMap TabCol Value → Except RedBaseError (Std.TreeMap TabCol Value)
  | [], dict => .ok dict
  | c :: cols, dict =>
      if dict.contains c.tabCol then .error .assertionFailure
      else
        match (c.decode (c.field rec)).initRaw (heap c.tabCol) c.len with
        | .error e => .error e
        | .ok val => rec2dictFrom heap rec cols (dict.insert c.tabCol val)

/-- `rec2dict`. -/
def rec2dict (heap : TabCol → Nat → UInt8) (cols : List ColMeta) (rec : RmRecord) :
    Except RedBaseError (Std.TreeMap TabCol Value) :=
  rec2dictFrom heap rec cols ∅

/-! ## Encoding a value -/

/-- The bytes of a datum. -/
def Datum.bytes : Datum → Nat → UInt8
  | .int v => byteOf v.toInt
  | .float v => byteOf v.toInt
  | .str s => padded s

/-- The datum belongs in a column of type `type` and length `len`, and can be read back. -/
def Datum.Fits (type : ColType) (len : Int) : Datum → Prop
  | .int _ => type = .typeInt ∧ len = 4
  | .float _ => type = .typeFloat ∧ len = 4
  | .str s => type = .typeString ∧ s.length ≤ len ∧ ∀ c ∈ s, c ≠ 0

/-- A column's length is an `int` that is not negative, and 4 unless it holds strings. -/
structure ColMeta.Sized (c : ColMeta) : Prop where
  nonneg : 0 ≤ c.len
  isInt : IsInt32 c.len
  number : c.type ≠ .typeString → c.len = 4

variable {heap : Nat → UInt8} {d : Datum} {c : ColMeta} {len : Int} {p : Nat → UInt8}
  {s : List UInt8} {n i : Nat}

theorem toInt_of_isInt32 {v : Int} (h : IsInt32 v) : toInt v = v :=
  Int32.toInt_ofInt_of_le h.1 h.2

theorem isInt32_toInt (v : Int32) : IsInt32 v.toInt := ⟨v.le_toInt, v.toInt_lt⟩

/-- What a buffer of `len` bytes holds once the datum is written to it. -/
structure Encodes (heap : Nat → UInt8) (d : Datum) (len : Int) (r : RmRecord) : Prop where
  size : r.size = len
  inside : ∀ i, i < len.toNat → r.data i = d.bytes i
  behind : ∀ i, len.toNat ≤ i → r.data i = heap i

/-- **`init_raw` of a datum that fits.** -/
theorem initRaw_fits (heap : Nat → UInt8) (hfit : d.Fits c.type c.len) (hc : c.Sized) :
    ∃ r, Value.initRaw heap ⟨d, none⟩ c.len = .ok ⟨d, some r⟩ ∧ Encodes heap d c.len r := by
  have hneg : ¬ c.len < 0 := Int.not_lt.mpr hc.nonneg
  have hnone : ¬ (none : Option RmRecord).isSome := by simp
  unfold Value.initRaw
  rw [if_neg hnone, if_neg hneg]
  cases d with
  | int v =>
      obtain ⟨_, hlen⟩ := hfit
      refine ⟨_, if_pos hlen, rfl, fun i hi => ?_, fun i hi => ?_⟩
      · exact memcpy_apply_of_mem (Nat.zero_le _) (by omega)
      · exact memcpy_apply_of_not (by omega)
  | float v =>
      obtain ⟨_, hlen⟩ := hfit
      refine ⟨_, if_pos hlen, rfl, fun i hi => ?_, fun i hi => ?_⟩
      · exact memcpy_apply_of_mem (Nat.zero_le _) (by omega)
      · exact memcpy_apply_of_not (by omega)
  | str s =>
      obtain ⟨_, hle, _⟩ := hfit
      have hint : toInt s.length = s.length :=
        toInt_of_isInt32 ⟨by omega, Int.lt_of_le_of_lt hle hc.isInt.2⟩
      refine ⟨_, if_neg (by omega), rfl, fun i hi => ?_, fun i hi => ?_⟩
      · by_cases his : i < s.length
        · exact memcpy_apply_of_mem (Nat.zero_le _) (by omega)
        · show memcpy _ 0 _ _ i = padded s i
          rw [memcpy_apply_of_not (by omega), memcpy_apply_of_mem (Nat.zero_le _) (by omega),
            padded_of_le (by omega)]
      · show memcpy _ 0 _ _ i = heap i
        rw [memcpy_apply_of_not (by omega), memcpy_apply_of_not (by omega)]

/-! ## Decoding a field -/

/-- The characters of a padded string, up to the first zero. -/
theorem takeWhile_padded (hs : ∀ c ∈ s, c ≠ 0) (hn : s.length ≤ n) :
    (firstBytes (padded s) n).takeWhile (· ≠ 0) = s := by
  induction s generalizing n with
  | nil =>
      cases n with
      | zero => rfl
      | succ n =>
          rw [firstBytes_succ, padded_of_le (Nat.zero_le 0)]
          rfl
  | cons c s ih =>
      cases n with
      | zero => exact absurd hn (by simp)
      | succ n =>
          have hc : c ≠ 0 := hs c (by simp)
          rw [firstBytes_succ, padded_cons_zero, List.takeWhile_cons_of_pos (by simpa using hc)]
          exact congrArg _ (ih (fun x hx => hs x (List.mem_cons_of_mem _ hx)) (Nat.le_of_succ_le_succ hn))

/-- An integer is what its four bytes say. -/
theorem int32At_bytes {v : Int32} (h : ∀ i, i < 4 → p i = byteOf v.toInt i) :
    int32At p 0 = v.toInt := by
  have hp : int32At p 0 = int32At (putInt32 p 0 v.toInt) 0 := by
    refine int32At_congr fun k hk => ?_
    rw [Nat.zero_add, h k hk, putInt32, memcpy_apply_of_mem (Nat.zero_le _) (by omega), Nat.sub_zero]
  rw [hp, int32At_putInt32 (isInt32_toInt v)]

theorem ofInt_int32At {v : Int32} (h : ∀ i, i < 4 → p i = byteOf v.toInt i) :
    Int32.ofInt (int32At p 0) = v := by
  rw [int32At_bytes h, Int32.ofInt_toInt]

/-- **Decoding undoes encoding.** -/
theorem decode_bytes (hfit : d.Fits c.type c.len) (hp : ∀ i, i < c.len.toNat → p i = d.bytes i) :
    c.decode p = ⟨d, none⟩ := by
  unfold ColMeta.decode
  cases d with
  | int v =>
      obtain ⟨htype, hlen⟩ := hfit
      rw [htype]
      exact congrArg Value.setInt (ofInt_int32At fun i hi => hp i (by omega))
  | float v =>
      obtain ⟨htype, hlen⟩ := hfit
      rw [htype]
      exact congrArg Value.setFloat (ofInt_int32At fun i hi => hp i (by omega))
  | str s =>
      obtain ⟨htype, hle, hs⟩ := hfit
      rw [htype]
      show Value.setStr _ = _
      rw [firstBytes_congr hp]
      exact congrArg Value.setStr (takeWhile_padded hs (by omega))

/-- Whatever the bytes are, what is read from them fits the column. -/
theorem fits_decode (hc : c.Sized) : (c.decode p).datum.Fits c.type c.len := by
  unfold ColMeta.decode
  cases htype : c.type with
  | typeInt => exact ⟨rfl, hc.number (by simp [htype])⟩
  | typeFloat => exact ⟨rfl, hc.number (by simp [htype])⟩
  | typeString =>
      refine ⟨rfl, ?_, fun b hb => ?_⟩
      · have h1 := (List.takeWhile_prefix (p := (· ≠ 0)) (l := firstBytes p c.len.toNat)).length_le
        have h2 := hc.nonneg
        rw [length_firstBytes] at h1
        show (((firstBytes p c.len.toNat).takeWhile (· ≠ 0)).length : Int) ≤ c.len
        omega
      · simpa using List.all_eq_true.mp List.all_takeWhile b hb

theorem decode_fresh : c.decode p = ⟨(c.decode p).datum, none⟩ := by
  unfold ColMeta.decode
  cases c.type <;> rfl

/-! ## Taking a row apart -/

/-- What a row's dictionary says about column `c`. -/
structure Entry (heap : TabCol → Nat → UInt8) (rec : RmRecord) (c : ColMeta) (v : Value) : Prop where
  datum : v.datum = (c.decode (c.field rec)).datum
  raw : ∃ r, v.raw = some r ∧ Encodes (heap c.tabCol) v.datum c.len r

/-- **One entry for each column.** -/
theorem rec2dictFrom_spec (heap : TabCol → Nat → UInt8) (rec : RmRecord) {cols : List ColMeta}
    {dict : Std.TreeMap TabCol Value} (hkeys : (cols.map ColMeta.tabCol).Nodup)
    (hcols : ∀ c ∈ cols, c.Sized) (hnew : ∀ c ∈ cols, c.tabCol ∉ dict) :
    ∃ dict', rec2dictFrom heap rec cols dict = .ok dict'
      ∧ dict'.size = dict.size + cols.length
      ∧ (∀ c ∈ cols, ∃ v, dict'[c.tabCol]? = some v ∧ Entry heap rec c v)
      ∧ ∀ k, (∀ c ∈ cols, c.tabCol ≠ k) → dict'[k]? = dict[k]? := by
  induction cols generalizing dict with
  | nil => exact ⟨dict, rfl, rfl, by simp, fun _ _ => rfl⟩
  | cons c cols ih =>
      rw [List.map_cons, List.nodup_cons] at hkeys
      have hfresh : c.tabCol ∉ dict := hnew c (by simp)
      have hne : ∀ c' ∈ cols, c'.tabCol ≠ c.tabCol := fun c' hc' h =>
        hkeys.1 (h ▸ List.mem_map_of_mem hc')
      obtain ⟨r, hraw, henc⟩ := initRaw_fits (heap c.tabCol)
        (fits_decode (p := c.field rec) (hcols c (by simp))) (hcols c (by simp))
      rw [← decode_fresh] at hraw
      generalize hv : (⟨(c.decode (c.field rec)).datum, some r⟩ : Value) = v at hraw
      -- no later column has the key just inserted
      have hnew' : ∀ c' ∈ cols, c'.tabCol ∉ dict.insert c.tabCol v := by
        intro c' hc'
        rw [Std.TreeMap.mem_insert]
        rintro (h | h)
        · exact hne c' hc' (Std.LawfulEqOrd.eq_of_compare h).symm
        · exact hnew c' (List.mem_cons_of_mem _ hc') h
      obtain ⟨dict', hrun, hsize, hent, hold⟩ := ih hkeys.2
        (fun c' hc' => hcols c' (List.mem_cons_of_mem _ hc')) hnew'
      refine ⟨dict', ?_, ?_, ?_, ?_⟩
      · unfold rec2dictFrom
        rw [if_neg (by simpa using hfresh), hraw]
        exact hrun
      · rw [hsize, Std.TreeMap.size_insert, if_neg (by simpa using hfresh), List.length_cons]
        omega
      · intro c' hc'
        rcases List.mem_cons.mp hc' with rfl | hc'
        · refine ⟨v, ?_, ?_⟩
          · rw [hold _ hne, Std.TreeMap.getElem?_insert_self]
          · rw [← hv]
            exact ⟨rfl, r, rfl, henc⟩
        · exact hent c' hc'
      · intro k hk
        rw [hold k fun c' hc' => hk c' (List.mem_cons_of_mem _ hc'), Std.TreeMap.getElem?_insert,
          if_neg (fun h => hk c (by simp) (Std.LawfulEqOrd.eq_of_compare h))]

theorem rec2dict_spec (heap : TabCol → Nat → UInt8) (rec : RmRecord) {cols : List ColMeta}
    (hkeys : (cols.map ColMeta.tabCol).Nodup) (hcols : ∀ c ∈ cols, c.Sized) :
    ∃ dict, rec2dict heap cols rec = .ok dict ∧ dict.size = cols.length
      ∧ ∀ c ∈ cols, ∃ v, dict[c.tabCol]? = some v ∧ Entry heap rec c v := by
  obtain ⟨dict, hrun, hsize, hent, _⟩ := rec2dictFrom_spec heap rec hkeys hcols
    fun c _ => Std.TreeMap.not_mem_emptyc
  refine ⟨dict, hrun, ?_, hent⟩
  rw [hsize, Std.TreeMap.size_emptyc, Nat.zero_add]

/-! ## Fields that `init_raw` filled -/

/-- The field of the column holds what `init_raw` makes of the datum. -/
def Holds (rec : RmRecord) (c : ColMeta) (d : Datum) : Prop :=
  ∃ heap v r, Value.initRaw heap ⟨d, none⟩ c.len = .ok v ∧ v.raw = some r
    ∧ ∀ i, i < c.len.toNat → c.field rec i = r.data i

/-- The row's dictionary has one entry for each column: the value assigned to it, encoded as in the
row. -/
def Decodes (heap : TabCol → Nat → UInt8) (cols : List ColMeta) (rec : RmRecord)
    (vals : ColMeta → Datum) : Prop :=
  ∃ dict, rec2dict heap cols rec = .ok dict ∧ dict.size = cols.length
    ∧ ∀ c ∈ cols, ∃ r, dict[c.tabCol]? = some ⟨vals c, some r⟩ ∧ r.size = c.len
      ∧ ∀ i, i < c.len.toNat → r.data i = c.field rec i

theorem Datum.Fits.type_eq {type : ColType} (hfit : d.Fits type len) : d.type = type := by
  cases d <;> exact hfit.1.symm

theorem Datum.Fits.sized (hfit : d.Fits c.type c.len) (hint : IsInt32 c.len) : c.Sized := by
  refine ⟨?_, hint, fun htype => ?_⟩
  · cases d with
    | int v => exact (hfit.2 ▸ by decide)
    | float v => exact (hfit.2 ▸ by decide)
    | str s => exact Int.le_trans (Int.natCast_nonneg _) hfit.2.1
  · cases d with
    | int v => exact hfit.2
    | float v => exact hfit.2
    | str s => exact absurd hfit.1 htype

theorem Holds.bytes {rec : RmRecord} (h : Holds rec c d) (hfit : d.Fits c.type c.len)
    (hint : IsInt32 c.len) : ∀ i, i < c.len.toNat → c.field rec i = d.bytes i := by
  obtain ⟨buf, v, r, hrun, hraw, hfield⟩ := h
  obtain ⟨r', hrun', henc⟩ := initRaw_fits buf hfit (hfit.sized hint)
  obtain rfl : r = r' := by
    rw [hrun, Except.ok.injEq] at hrun'
    rw [hrun'] at hraw
    exact (Option.some.inj hraw).symm
  intro i hi
  rw [hfield i hi, henc.inside i hi]

/-- **A row made by `init_raw` is read back**: `rec2dict` undoes the encoding of every column. -/
theorem decodes_of_holds (heap : TabCol → Nat → UInt8) {cols : List ColMeta} {rec : RmRecord}
    {vals : ColMeta → Datum} (hkeys : (cols.map ColMeta.tabCol).Nodup)
    (hint : ∀ c ∈ cols, IsInt32 c.len) (hfit : ∀ c ∈ cols, (vals c).Fits c.type c.len)
    (hrec : ∀ c ∈ cols, Holds rec c (vals c)) : Decodes heap cols rec vals := by
  obtain ⟨dict, hrun, hsize, hent⟩ := rec2dict_spec heap rec hkeys
    fun c hc => (hfit c hc).sized (hint c hc)
  refine ⟨dict, hrun, hsize, fun c hc => ?_⟩
  obtain ⟨v, hv, hdatum, r, hraw, henc⟩ := hent c hc
  have hbytes := (hrec c hc).bytes (hfit c hc) (hint c hc)
  have hval : v.datum = vals c := by
    rw [hdatum, decode_bytes (hfit c hc) hbytes]
  refine ⟨r, ?_, henc.size, fun i hi => ?_⟩
  · rw [hv, ← hval, ← hraw]
  · rw [henc.inside i hi, hval, hbytes i hi]

/-! ## Strings that are too long -/

/-- `init_raw` compares the column length with the size of the string as an `int`. -/
theorem initRaw_overflow : Value.initRaw heap (.setStr s) len = .error .stringOverflowError
    ↔ 0 ≤ len ∧ len < toInt s.length := by
  have hnone : ¬ (none : Option RmRecord).isSome := by simp
  unfold Value.initRaw Value.setStr
  rw [if_neg hnone]
  by_cases hneg : len < 0
  · rw [if_pos hneg]
    exact ⟨fun h => by simp at h, fun h => absurd h.1 (by omega)⟩
  · rw [if_neg hneg]
    dsimp only
    by_cases hlong : len < toInt s.length
    · rw [if_pos hlong]
      exact ⟨fun _ => ⟨by omega, hlong⟩, fun _ => rfl⟩
    · rw [if_neg hlong]
      exact ⟨fun h => by simp at h, fun h => absurd h.2 hlong⟩

/-- **Row decoding, and which strings are refused.** The rows are always read back. A string that is
longer than the column is refused as such if and only if the column length is not negative, and the
size of the string is no `int` that wraps to the column length or below. -/
theorem row_decoding_iff {heap : TabCol → Nat → UInt8} {cols : List ColMeta} {rec : RmRecord}
    {vals : ColMeta → Datum} (hkeys : (cols.map ColMeta.tabCol).Nodup)
    (hint : ∀ c ∈ cols, IsInt32 c.len) (hfit : ∀ c ∈ cols, (vals c).Fits c.type c.len)
    (hrec : ∀ c ∈ cols, Holds rec c (vals c)) (buf : Nat → UInt8) (s : List UInt8) {len : Int}
    (hlen : IsInt32 len) : Decodes heap cols rec vals
        ∧ (Value.initRaw buf (.setStr s) len = .error .stringOverflowError ↔ len < s.length)
      ↔ 0 ≤ len ∧ (s.length < 2147483648 ∨ len < toInt s.length) := by
  have hdec := decodes_of_holds heap hkeys hint hfit hrec
  -- sizes below 2^31 are what they are as an `int`
  have hsmall : s.length < 2147483648 → toInt s.length = s.length :=
    fun h => toInt_of_isInt32 ⟨by omega, by omega⟩
  have hlt := hlen.2
  rw [initRaw_overflow]
  constructor
  · rintro ⟨_, h⟩
    have h0 : 0 ≤ len := by
      by_contra hneg
      exact hneg (h.mpr (by omega)).1
    refine ⟨h0, ?_⟩
    rcases Nat.lt_or_ge s.length 2147483648 with hs | hs
    · exact .inl hs
    · exact .inr (h.mpr (by omega)).2
  · rintro ⟨h0, h⟩
    refine ⟨hdec, ?_⟩
    rcases Nat.lt_or_ge s.length 2147483648 with hs | hs
    · rw [hsmall hs]
      exact ⟨And.right, fun h => ⟨h0, h⟩⟩
    · have hwrap : len < toInt s.length := h.resolve_left (by omega)
      exact ⟨fun _ => by omega, fun _ => ⟨h0, hwrap⟩⟩

/-- An `INT` column and a `CHAR(2)` column behind it. -/
def intAndChar : List ColMeta :=
  [⟨"t", "a", .typeInt, 4, 0, false⟩, ⟨"t", "b", .typeString, 2, 4, false⟩]

/-- A row of theirs, the string as long as its column. -/
def sevenAb : RmRecord := ⟨6, memcpy (putInt32 (fun _ => 0) 0 7) 4 (padded [97, 98]) 2⟩

theorem row_decoding_iff_sevenAb :
    Decodes (fun _ _ => 255) intAndChar sevenAb
        (fun c => if c.name = "a" then .int 7 else .str [97, 98])
      ∧ (Value.initRaw (fun _ => 255) (.setStr [97, 98, 99]) 2 = .error .stringOverflowError
        ↔ (2 : Int) < ([97, 98, 99] : List UInt8).length) := by
  refine (row_decoding_iff (by decide) ?_ ?_ ?_ _ _ (by decide)).mpr ⟨by decide, .inl (by decide)⟩
  · decide
  · intro c hc
    rcases List.mem_cons.mp hc with rfl | hc
    · exact ⟨rfl, rfl⟩
    · obtain rfl := List.mem_singleton.mp hc
      exact ⟨rfl, by decide, by simp⟩
  · intro c hc
    rcases List.mem_cons.mp hc with rfl | hc
    · exact ⟨fun _ => 0, _, _, rfl, rfl, by decide⟩
    · obtain rfl := List.mem_singleton.mp hc
      exact ⟨fun _ => 0, _, _, rfl, rfl, by decide⟩

/-- A string that is longer than the column, but is not refused as such: any string if the length is
negative, and one of 2^31 bytes. -/
theorem long_string_not_refused :
    ¬ (Value.initRaw (fun _ => 0) (.setStr [120]) (-1) = .error .stringOverflowError
        ↔ (-1 : Int) < ([120] : List UInt8).length)
      ∧ ¬ (Value.initRaw (fun _ => 0) (.setStr (List.replicate 2147483648 120)) 4
          = .error .stringOverflowError
        ↔ (4 : Int) < (List.replicate 2147483648 (120 : UInt8)).length) := by
  rw [initRaw_overflow, initRaw_overflow, List.length_replicate]
  decide

end Rucbase
