import Rucbase.Execution.ExecutionManager

/-!
# Table names in log records

`recovery/log_record.h`: the constructors, as far as they compute `size_`, and the two functions
that write a table name to the log buffer and read it back. A name takes `sizeof(int)` bytes for its
length and one for each character, and `size_` says so; `SerializeTableName` moves the cursor by
`sizeof(int)` twice.
-/

namespace Rucbase

open Lib

inductive LogRecordType where
  | invalid
  | createTable
  | markDropTable
  | applyDropTable
  | createIndex
  | markDropIndex
  | applyDropIndex
  | insert
  | update
  | delete
  | begin
  | commit
  | abort
  | newPage
deriving DecidableEq, Repr

/-- `LogRecord`: its size, and the bytes at `tab_name_`, of which there are `tab_name_size_`. -/
structure LogRecord where
  size : Int
  logType : LogRecordType
  tabName : List UInt8
  isInt : tabName.length < 2147483648

namespace LogRecord

/-- `HEADER_SIZE`. -/
def headerSize : Int := 20

/-- `tab_name_size_`. -/
def tabNameSize (r : LogRecord) : Int := r.tabName.length

/-- What every constructor does with the table name, and `size_` with `fixed` bytes for the rest: the
size of the string becomes an `int`, and as many characters are copied. -/
def ofName (logType : LogRecordType) (fixed : Int) (tableName : List UInt8) :
    Except RedBaseError LogRecord :=
  if h : 0 ≤ toInt tableName.length then
    .ok
      { size := toInt (headerSize + fixed + toInt tableName.length)
        logType := logType
        tabName := tableName.take (toInt tableName.length).toNat
        isInt := by
          have hlt : toInt tableName.length < 2147483648 := Int32.toInt_lt _
          rw [List.length_take]
          omega }
  else .error .badAlloc

/-- The constructor for operations on a table. -/
def ofTable (logType : LogRecordType) (tableName : List UInt8) : Except RedBaseError LogRecord :=
  ofName logType 4 tableName

/-- The constructor for updates. -/
def ofUpdate (logType : LogRecordType) (oldTuple newTuple : RmRecord) (tableName : List UInt8) :
    Except RedBaseError LogRecord :=
  ofName logType (8 + 4 * 3 + oldTuple.size + newTuple.size) tableName

/-- The constructor for insertions and deletions. -/
def ofTuple (logType : LogRecordType) (record : RmRecord) (tableName : List UInt8) :
    Except RedBaseError LogRecord :=
  if logType = .insert ∨ logType = .delete then ofName logType (8 + 4 * 2 + record.size) tableName
  else .error .assertionFailure

/-- The constructor for new pages. -/
def ofPage (logType : LogRecordType) (tableName : List UInt8) : Except RedBaseError LogRecord :=
  ofName logType (4 * 2) tableName

/-- The bytes that the log format has for a table name. -/
def nameBytes (r : LogRecord) : Int := 4 + r.tabNameSize

/-- A size is not larger as an `int`. -/
theorem toInt_le (n : Nat) : toInt n ≤ n := by
  rcases Nat.lt_or_ge n 2147483648 with hn | hn
  · exact Int.le_of_eq (Int32.toInt_ofInt_of_le (by omega) (by omega))
  · have hlt : toInt n < 2147483648 := Int32.toInt_lt _
    omega

/-- **`size_` counts the bytes of the name**, beside the header and the other fields of a record of
its kind. -/
theorem size_eq {logType : LogRecordType} {fixed : Int} {tableName : List UInt8} {r : LogRecord}
    (h : ofName logType (4 + fixed) tableName = .ok r) :
    r.size = toInt (headerSize + fixed + r.nameBytes) := by
  unfold ofName at h
  split at h
  · next h0 =>
      obtain rfl := Except.ok.inj h
      have hle := toInt_le tableName.length
      have hlen : ((tableName.take (toInt tableName.length).toNat).length : Int)
          = toInt tableName.length := by
        rw [List.length_take]
        omega
      rw [nameBytes, tabNameSize, hlen]
      exact congrArg toInt (by omega)
  · exact absurd h (by simp)

/-! ## Writing and reading names -/

/-- `SerializeTableName`. The cursor is an `int`. -/
def serializeTableName (r : LogRecord) (logBuffer : Nat → UInt8) (pos : Nat) :
    Except RedBaseError ((Nat → UInt8) × Nat) :=
  let logBuffer := putInt32 logBuffer pos r.tabNameSize
  if 2147483648 ≤ pos + 4 then .error .undefinedBehaviour
  else
    let logBuffer := memcpy logBuffer (pos + 4) (padded r.tabName) r.tabName.length
    if 2147483648 ≤ pos + 4 + 4 then .error .undefinedBehaviour
    else .ok (logBuffer, pos + 4 + 4)

/-- `DeserializeTableName`: the length and the characters. -/
def deserializeTableName (data : Nat → UInt8) : Except RedBaseError (Int × List UInt8) :=
  let tabNameSize := int32At data 0
  if tabNameSize < 0 then .error .badAlloc
  else .ok (tabNameSize, firstBytes (fun i => data (4 + i)) tabNameSize.toNat)

/-- The names of some records, one after the other: where each call starts and the last one ends, and
the buffer. -/
def serializeNames : List LogRecord → (Nat → UInt8) → Nat →
    Except RedBaseError (List Nat × (Nat → UInt8))
  | [], logBuffer, pos => .ok ([pos], logBuffer)
  | r :: rs, logBuffer, pos =>
      match r.serializeTableName logBuffer pos with
      | .error e => .error e
      | .ok (logBuffer, pos') =>
          match serializeNames rs logBuffer pos' with
          | .error e => .error e
          | .ok (starts, logBuffer) => .ok (pos :: starts, logBuffer)

/-- What the log needs of the names: every call moves the cursor by the bytes of its name, no call
writes where an earlier name is, and every name can be read back from where it starts. -/
def RoundTrips (rs : List LogRecord) (logBuffer : Nat → UInt8) (pos : Nat) : Prop :=
  ∃ starts buf, serializeNames rs logBuffer pos = .ok (starts, buf)
    ∧ (∀ (k : Nat) (r : LogRecord) (p : Nat), rs[k]? = some r → starts[k]? = some p →
      ∃ p', starts[k + 1]? = some p' ∧ (p' : Int) = p + r.nameBytes)
    ∧ (∀ (j k : Nat) (r r' : LogRecord) (p p' : Nat), j < k → rs[j]? = some r → rs[k]? = some r' →
      starts[j]? = some p → starts[k]? = some p' →
      ∀ i : Nat, p ≤ i → (i : Int) < p + r.nameBytes → ¬ (p' ≤ i ∧ (i : Int) < p' + r'.nameBytes))
    ∧ ∀ (k : Nat) (r : LogRecord) (p : Nat), rs[k]? = some r → starts[k]? = some p →
      deserializeTableName (fun i => buf (p + i)) = .ok (r.tabNameSize, r.tabName)

variable {r : LogRecord} {rs : List LogRecord} {logBuffer : Nat → UInt8} {pos i : Nat}

theorem isInt32_tabNameSize (r : LogRecord) : IsInt32 r.tabNameSize := by
  have h := r.isInt
  unfold IsInt32 tabNameSize
  omega

/-- The buffer after one call. -/
def written (r : LogRecord) (logBuffer : Nat → UInt8) (pos : Nat) : Nat → UInt8 :=
  memcpy (putInt32 logBuffer pos r.tabNameSize) (pos + 4) (padded r.tabName) r.tabName.length

/-- One call, while the cursor stays an `int`. -/
theorem serializeTableName_ok (h : pos + 8 < 2147483648) :
    r.serializeTableName logBuffer pos = .ok (r.written logBuffer pos, pos + 8) := by
  unfold serializeTableName
  dsimp only
  rw [if_neg (by omega), if_neg (by omega)]
  rfl

theorem serializeTableName_error (h : ¬ pos + 8 < 2147483648) :
    r.serializeTableName logBuffer pos = .error .undefinedBehaviour := by
  unfold serializeTableName
  dsimp only
  split
  · rfl
  · exact if_pos (by omega)

theorem written_before (h : i < pos) : r.written logBuffer pos i = logBuffer i := by
  rw [written, memcpy_apply_of_not (by omega), putInt32, memcpy_apply_of_not (by omega)]

/-- **A name is read back** from bytes that no other call has touched. -/
theorem deserializeTableName_written {buf : Nat → UInt8}
    (h : ∀ i, pos ≤ i → i < pos + 4 + r.tabName.length → buf i = r.written logBuffer pos i) :
    deserializeTableName (fun i => buf (pos + i)) = .ok (r.tabNameSize, r.tabName) := by
  have hsize : int32At (fun i => buf (pos + i)) 0 = r.tabNameSize := by
    calc int32At (fun i => buf (pos + i)) 0 = int32At buf pos := by simp [int32At]
      _ = int32At (r.written logBuffer pos) pos :=
          int32At_congr fun k hk => h _ (by omega) (by omega)
      _ = int32At (putInt32 logBuffer pos r.tabNameSize) pos :=
          int32At_memcpy_of_disjoint (by omega)
      _ = r.tabNameSize := int32At_putInt32 (isInt32_tabNameSize r)
  have hname : firstBytes (fun i => buf (pos + (4 + i))) r.tabName.length = r.tabName := by
    calc firstBytes (fun i => buf (pos + (4 + i))) r.tabName.length
        = firstBytes (padded r.tabName) r.tabName.length := by
          refine firstBytes_congr fun i hi => ?_
          rw [h _ (by omega) (by omega), written, memcpy_apply_of_mem (by omega) (by omega)]
          exact congrArg _ (by omega)
      _ = r.tabName := firstBytes_padded
  have hnonneg : ¬ r.tabNameSize < 0 := by
    unfold tabNameSize
    omega
  have hnat : r.tabNameSize.toNat = r.tabName.length := Int.toNat_natCast _
  unfold deserializeTableName
  dsimp only
  rw [hsize, if_neg hnonneg, hnat, hname]

/-! ## A row of names -/

/-- The cursor is moved by eight bytes for each name, whatever their lengths are; where it ends, every
byte before is as it was. -/
theorem serializeNames_ok (logBuffer : Nat → UInt8) (h : pos + 8 * rs.length < 2147483648) :
    ∃ buf, serializeNames rs logBuffer pos
        = .ok ((List.range (rs.length + 1)).map fun k => pos + 8 * k, buf)
      ∧ (∀ i, i < pos → buf i = logBuffer i)
      ∧ ((∀ r ∈ rs, r.tabName.length = 4) → ∀ (k : Nat) (r : LogRecord), rs[k]? = some r →
        deserializeTableName (fun i => buf (pos + 8 * k + i)) = .ok (r.tabNameSize, r.tabName)) := by
  induction rs generalizing logBuffer pos with
  | nil => exact ⟨logBuffer, rfl, fun _ _ => rfl, fun _ k r hr => absurd hr (by simp)⟩
  | cons r rs ih =>
      rw [List.length_cons] at h
      have hnext : pos + 8 + 8 * rs.length < 2147483648 := by omega
      obtain ⟨buf, hrun, hbefore, hread⟩ := ih (r.written logBuffer pos) hnext
      have hstarts : (List.range (rs.length + 1 + 1)).map (fun k => pos + 8 * k)
          = pos :: (List.range (rs.length + 1)).map fun k => pos + 8 + 8 * k := by
        rw [List.range_succ_eq_map, List.map_cons, List.map_map]
        refine congrArg _ (List.map_congr_left fun k _ => ?_)
        show pos + 8 * (k + 1) = pos + 8 + 8 * k
        omega
      refine ⟨buf, ?_, fun i hi => ?_, fun hfour k r' hk => ?_⟩
      · rw [serializeNames, serializeTableName_ok (by omega)]
        dsimp only
        rw [hrun, List.length_cons, hstarts]
      · rw [hbefore i (by omega), written_before hi]
      · cases k with
        | zero =>
            obtain rfl : r = r' := by simpa using hk
            have hlen : r.tabName.length = 4 := hfour r (by simp)
            exact deserializeTableName_written fun i _ hi => hbefore i (by omega)
        | succ k =>
            have := hread (fun r hr => hfour r (List.mem_cons_of_mem _ hr)) k r' (by simpa using hk)
            rw [show pos + 8 * (k + 1) = pos + 8 + 8 * k by omega]
            exact this

/-- The cursor of a run that ends well is an `int` all the way. -/
theorem serializeNames_bound {starts : List Nat} {buf : Nat → UInt8} (hpos : pos < 2147483648)
    (h : serializeNames rs logBuffer pos = .ok (starts, buf)) : pos + 8 * rs.length < 2147483648 := by
  induction rs generalizing logBuffer pos starts buf with
  | nil => simpa using hpos
  | cons r rs ih =>
      rw [serializeNames] at h
      by_cases hnext : pos + 8 < 2147483648
      · rw [serializeTableName_ok hnext] at h
        dsimp only at h
        cases hrest : serializeNames rs (r.written logBuffer pos) (pos + 8) with
        | error e =>
            rw [hrest] at h
            exact absurd h (by simp)
        | ok rest =>
            have := ih hnext hrest
            rw [List.length_cons]
            omega
      · rw [serializeTableName_error hnext] at h
        exact absurd h (by simp)

/-- **Names round-trip** if and only if each of them has four characters, as many as the cursor
leaves room for, and the cursor stays an `int`. -/
theorem roundTrips_iff (rs : List LogRecord) (logBuffer : Nat → UInt8) {pos : Nat}
    (hpos : pos < 2147483648) : RoundTrips rs logBuffer pos
      ↔ (∀ r ∈ rs, r.tabName.length = 4) ∧ pos + 8 * rs.length < 2147483648 := by
  constructor
  · rintro ⟨starts, buf, hrun, hmove, _, _⟩
    have hbound := serializeNames_bound hpos hrun
    refine ⟨fun r hr => ?_, hbound⟩
    obtain ⟨k, hk⟩ := List.mem_iff_getElem?.mp hr
    have hlt : k < rs.length := (List.getElem?_eq_some_iff.mp hk).1
    obtain ⟨buf', hrun', _⟩ := serializeNames_ok logBuffer hbound
    rw [hrun, Except.ok.injEq, Prod.mk.injEq] at hrun'
    -- the writer always steps 8 on; what a reader steps is the length of the name and 4
    have hstart : ∀ k, k < rs.length + 1 → starts[k]? = some (pos + 8 * k) := by
      intro k hk
      rw [hrun'.1, List.getElem?_map, List.getElem?_range hk]
      rfl
    obtain ⟨p', hp', hmoved⟩ := hmove k r _ hk (hstart k (by omega))
    rw [hstart (k + 1) (by omega), Option.some.injEq] at hp'
    unfold nameBytes tabNameSize at hmoved
    omega
  · rintro ⟨hfour, hbound⟩
    obtain ⟨buf, hrun, _, hread⟩ := serializeNames_ok logBuffer hbound
    have hstart : ∀ k p, k < rs.length → ((List.range (rs.length + 1)).map fun k => pos + 8 * k)[k]?
        = some p → p = pos + 8 * k := by
      intro k p hk hp
      rw [List.getElem?_map, List.getElem?_range (by omega)] at hp
      exact (Option.some.inj hp).symm
    -- with four letters both step the same
    have hbytes : ∀ {k r}, rs[k]? = some r → r.nameBytes = 8 ∧ k < rs.length := by
      intro k r hk
      have hlen := hfour r (List.mem_of_getElem? hk)
      refine ⟨?_, (List.getElem?_eq_some_iff.mp hk).1⟩
      unfold nameBytes tabNameSize
      omega
    refine ⟨_, buf, hrun, ?_, ?_, ?_⟩
    · intro k r p hk hp
      obtain ⟨hb, hlt⟩ := hbytes hk
      obtain rfl := hstart k p hlt hp
      refine ⟨pos + 8 * (k + 1), ?_, by omega⟩
      rw [List.getElem?_map, List.getElem?_range (by omega)]
      rfl
    · intro j k r r' p p' hjk hj hk hp hp' i h1 h2
      obtain ⟨hb, hlt⟩ := hbytes hj
      obtain ⟨hb', hlt'⟩ := hbytes hk
      obtain rfl := hstart j p hlt hp
      obtain rfl := hstart k p' hlt' hp'
      omega
    · intro k r p hk hp
      obtain rfl := hstart k p (hbytes hk).2 hp
      exact hread hfour k r hk

/-- Two records whose names fit. -/
def fourByteNames : List LogRecord :=
  [⟨28, .applyDropTable, [97, 98, 99, 100], by decide⟩,
    ⟨28, .applyDropTable, [101, 102, 103, 104], by decide⟩]

theorem roundTrips_iff_two : RoundTrips fourByteNames (fun _ => 255) 0 :=
  (roundTrips_iff fourByteNames (fun _ => 255) (by decide)).mpr ⟨by decide, by decide⟩

/-- Two records whose names do not. -/
def ordersAndT : List LogRecord :=
  [⟨30, .applyDropTable, [111, 114, 100, 101, 114, 115], by decide⟩,
    ⟨25, .applyDropTable, [116], by decide⟩]

/-- **The second name is written over the end of the first**: the cursor is at 8 where it should be at
10, and what is read back is another name. -/
theorem orders_overwritten :
    (∃ buf, serializeNames ordersAndT (fun _ => 0) 0 = .ok ([0, 8, 16], buf)
      ∧ deserializeTableName buf = .ok (6, [111, 114, 100, 101, 1, 0]))
    ∧ ¬ RoundTrips ordersAndT (fun _ => 0) 0 := by
  refine ⟨⟨_, rfl, by decide +kernel⟩, ?_⟩
  rintro ⟨starts, buf, hrun, hmove, _, _⟩
  obtain ⟨rfl, _⟩ : [0, 8, 16] = starts ∧ _ = buf := Prod.mk.inj (Except.ok.inj hrun)
  obtain ⟨p', hp', hmoved⟩ := hmove 0 _ 0 rfl rfl
  obtain rfl : 8 = p' := Option.some.inj hp'
  exact absurd hmoved (by decide)

end LogRecord

end Rucbase
