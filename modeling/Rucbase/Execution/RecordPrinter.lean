import Mathlib.Tactic.Ring
import Rucbase.Execution.ExecutionManager
import Rucbase.Lib.Appender
import Rucbase.Lib.TextStream

/-!
# `RecordPrinter`

`record_printer.h` and the commands that print with it: `show_tables` and `desc_table` of
`system/sm_manager.cpp`, and the end of `select_from` in `execution/execution_manager.cpp`. They fill
`data_send`, which `client_handler` made for `BUFFER_LENGTH` bytes and one of which is for the
terminator.
-/

namespace Rucbase

open Lib

/-- The copies into `data_send`, at `*offset`. -/
abbrev PrintM := EStateM RedBaseError Appender

/-- `BUFFER_LENGTH`. -/
def bufferLength : Int := 8192

/-- The bytes of a string. -/
def strBytes (s : String) : List UInt8 := s.toUTF8.data.toList

/-- The bytes of a number as `std::to_string` writes it. -/
def charBytes (cs : List Char) : List UInt8 := cs.map fun c => .ofNat c.toNat

/-- `RecordPrinter`. -/
structure RecordPrinter where
  numCols : Nat

namespace RecordPrinter

/-- `COL_WIDTH`. -/
def colWidth : Nat := 16

/-- The constructor. -/
def new (numCols : Nat) : PrintM RecordPrinter :=
  if numCols = 0 then throw .assertionFailure else return ⟨numCols⟩

/-- `memcpy` and the new offset, as every function here has them. -/
def send (str : List UInt8) : PrintM Unit := modify (·.append str)

/-- `print_separator`. -/
def printSeparator (p : RecordPrinter) : PrintM Unit := do
  (List.range p.numCols).forM fun _ => send (strBytes "+" ++ List.replicate (colWidth + 2) 45)
  send (strBytes "+\n")

/-- A column that is too wide is cut, and ends with dots. -/
def cut (col : List UInt8) : List UInt8 :=
  if col.length > colWidth then col.take (colWidth - 3) ++ strBytes "..." else col

/-- A column to the right of its cell. -/
def cell (col : List UInt8) : List UInt8 :=
  strBytes "| " ++ (List.replicate (colWidth - (cut col).length) 32 ++ cut col) ++ strBytes " "

/-- `print_record`. -/
def printRecord (p : RecordPrinter) (recStr : List (List UInt8)) : PrintM Unit :=
  if recStr.length ≠ p.numCols then throw .assertionFailure
  else do
    recStr.forM fun col => send (cell col)
    send (strBytes "|\n")

/-- `print_record_count`. -/
def printRecordCount (numRec : Nat) : PrintM Unit :=
  send (strBytes "Total record(s): " ++ charBytes (putNat numRec) ++ strBytes "\n")

end RecordPrinter

/-! ## The commands -/

/-- `show_tables`. -/
def showTables (db : DbMeta) : PrintM Unit := do
  let printer ← RecordPrinter.new 1
  printer.printSeparator
  printer.printRecord [strBytes "Tables"]
  printer.printSeparator
  db.tabs.toList.forM fun entry => printer.printRecord [strBytes entry.2.name]
  printer.printSeparator

/-- `desc_table`. -/
def descTable (db : DbMeta) (tabName : String) : PrintM Unit := do
  let tab ← MonadExcept.ofExcept (db.getTable tabName)
  let captions := [strBytes "Field", strBytes "Type", strBytes "Index"]
  let printer ← RecordPrinter.new captions.length
  printer.printSeparator
  printer.printRecord captions
  printer.printSeparator
  tab.cols.forM fun col => printer.printRecord
    [strBytes col.name, strBytes (coltype2str col.type), strBytes (if col.index then "YES" else "NO")]
  printer.printSeparator

/-- What `select_from` prints: the columns of the statement, and those of the executor, which are as
many, with its records. -/
structure QueryResult where
  selCols : List TabCol
  cols : List ColMeta
  rows : List RmRecord
  same : cols.length = selCols.length
  nonempty : selCols ≠ []
  lens : ∀ col ∈ cols, 0 ≤ col.len

/-- A column of a record as a string. `floatStr` is `std::to_string` of the float with these four
bytes. -/
def colStr (floatStr : Int → List UInt8) (rec : RmRecord) (col : ColMeta) : List UInt8 :=
  match col.type with
  | .typeInt => charBytes (putInt (int32At (col.field rec) 0))
  | .typeFloat => floatStr (int32At (col.field rec) 0)
  | .typeString => ((List.range col.len.toNat).map (col.field rec)).takeWhile (· != 0)

/-- The printing at the end of `select_from`. -/
def printResult (floatStr : Int → List UInt8) (q : QueryResult) : PrintM Unit := do
  let recPrinter ← RecordPrinter.new q.selCols.length
  recPrinter.printSeparator
  recPrinter.printRecord (q.selCols.map fun selCol => strBytes selCol.colName)
  recPrinter.printSeparator
  q.rows.forM fun rec => recPrinter.printRecord (q.cols.map (colStr floatStr rec))
  recPrinter.printSeparator
  RecordPrinter.printRecordCount q.rows.length

/-! ## How much is sent -/

/-- `x` returns, and has sent `n` bytes. -/
def Prints (x : PrintM Unit) (n : Nat) : Prop :=
  ∃ strs, Appender.total strs = n ∧ ∀ b, x.run b = .ok ⟨⟩ (b.appendAll strs)

namespace Prints

variable {x y : PrintM Unit} {n m : Nat}

theorem bind (hx : Prints x n) (hy : Prints y m) : Prints (do x; y) (n + m) := by
  obtain ⟨strs, rfl, hx⟩ := hx
  obtain ⟨strs', rfl, hy⟩ := hy
  refine ⟨strs ++ strs', Appender.total_append, fun b => ?_⟩
  rw [bind_ok (hx b), hy, Appender.appendAll_append]

theorem forM {α : Type} {as : List α} {f : α → PrintM Unit} (h : ∀ a ∈ as, Prints (f a) n) :
    Prints (as.forM f) (as.length * n) := by
  induction as with
  | nil => exact ⟨[], by simp, fun b => rfl⟩
  | cons a as ih =>
      rw [List.length_cons, Nat.succ_mul, Nat.add_comm]
      exact (h a (by simp)).bind (ih fun a ha => h a (List.mem_cons_of_mem _ ha))

end Prints

namespace RecordPrinter

variable {p : RecordPrinter} {col : List UInt8} {recStr : List (List UInt8)}

theorem prints_send (str : List UInt8) : Prints (send str) str.length := ⟨[str], by simp, fun b => rfl⟩

theorem cut_length : (cut col).length ≤ colWidth := by
  unfold cut
  split
  · have hdots : (strBytes "...").length = 3 := by decide
    rw [List.length_append, List.length_take, hdots]
    unfold colWidth
    omega
  · omega

/-- A cell takes nineteen bytes, whatever is in it. -/
theorem cell_length : (cell col).length = 19 := by
  have hcut : (cut col).length ≤ 16 := cut_length
  have hfront : (strBytes "| ").length = 2 := by decide
  have hback : (strBytes " ").length = 1 := by decide
  unfold cell
  rw [List.length_append, List.length_append, List.length_append, List.length_replicate, hfront, hback]
  show 2 + (16 - (cut col).length + (cut col).length) + 1 = 19
  omega

theorem prints_printSeparator (p : RecordPrinter) : Prints p.printSeparator (19 * p.numCols + 2) := by
  have hdash : ∀ i ∈ List.range p.numCols,
      Prints (send (strBytes "+" ++ List.replicate (colWidth + 2) 45)) 19 := fun _ _ => prints_send _
  have hend : Prints (send (strBytes "+\n")) 2 := prints_send _
  have hline := (Prints.forM hdash).bind hend
  rw [List.length_range, Nat.mul_comm] at hline
  exact hline

theorem prints_printRecord (h : recStr.length = p.numCols) :
    Prints (p.printRecord recStr) (19 * p.numCols + 2) := by
  have hcell : ∀ col ∈ recStr, Prints (send (cell col)) 19 := by
    intro col _
    have hsend := prints_send (cell col)
    rwa [cell_length] at hsend
  have hend : Prints (send (strBytes "|\n")) 2 := prints_send _
  have hline := (Prints.forM hcell).bind hend
  rw [h, Nat.mul_comm] at hline
  unfold printRecord
  rw [if_neg (by simpa using h)]
  exact hline

theorem prints_printRecordCount (numRec : Nat) :
    Prints (printRecordCount numRec) (18 + (putNat numRec).length) := by
  have hsend := prints_send (strBytes "Total record(s): " ++ charBytes (putNat numRec)
    ++ strBytes "\n")
  have hlen : (strBytes "Total record(s): " ++ charBytes (putNat numRec) ++ strBytes "\n").length
      = 18 + (putNat numRec).length := by
    have hfront : (strBytes "Total record(s): ").length = 17 := by decide
    have hback : (strBytes "\n").length = 1 := by decide
    rw [List.length_append, List.length_append, hfront, hback, charBytes, List.length_map]
    omega
  rwa [hlen] at hsend

/-- What all three commands print: two lines around a header, some records, and a last line. -/
theorem prints_table {α : Type} {n : Nat} (p : RecordPrinter) (header : List (List UInt8))
    (as : List α) (f : α → List (List UInt8)) (rest : RecordPrinter → PrintM Unit)
    (hcols : p.numCols ≠ 0) (hheader : header.length = p.numCols)
    (hf : ∀ a ∈ as, (f a).length = p.numCols) (hrest : Prints (rest p) n) :
    Prints (do
      let printer ← new p.numCols
      printer.printSeparator
      printer.printRecord header
      printer.printSeparator
      as.forM fun a => printer.printRecord (f a)
      rest printer) ((19 * p.numCols + 2) * (as.length + 3) + n) := by
  have hnew : new p.numCols = pure p := by
    unfold new
    rw [if_neg hcols]
  have hrecords : Prints (as.forM fun a => p.printRecord (f a)) (as.length * (19 * p.numCols + 2)) :=
    .forM fun a ha => prints_printRecord (hf a ha)
  have hall := (prints_printSeparator p).bind ((prints_printRecord hheader).bind
    ((prints_printSeparator p).bind (hrecords.bind hrest)))
  rw [hnew, pure_bind]
  have hlen : (19 * p.numCols + 2) * (as.length + 3) + n
      = 19 * p.numCols + 2 + (19 * p.numCols + 2 + (19 * p.numCols + 2
        + (as.length * (19 * p.numCols + 2) + n))) := by
    ring
  rw [hlen]
  exact hall

end RecordPrinter

open RecordPrinter

theorem prints_showTables (db : DbMeta) : Prints (showTables db) (21 * (db.tabs.size + 4)) := by
  have h := prints_table ⟨1⟩ [strBytes "Tables"] db.tabs.toList (fun entry => [strBytes entry.2.name])
    printSeparator (by decide) rfl (fun _ _ => rfl) (prints_printSeparator ⟨1⟩)
  rw [Std.TreeMap.length_toList] at h
  have hlen : 21 * (db.tabs.size + 4) = (19 * 1 + 2) * (db.tabs.size + 3) + (19 * 1 + 2) := by omega
  rw [hlen]
  exact h

/-- `desc_table` of a table that exists. -/
theorem prints_descTable {db : DbMeta} {tabName : String} {tab : TabMeta}
    (htab : db.tabs[tabName]? = some tab) :
    Prints (descTable db tabName) (59 * (tab.cols.length + 4)) := by
  have h := prints_table ⟨3⟩ [strBytes "Field", strBytes "Type", strBytes "Index"] tab.cols
    (fun col => [strBytes col.name, strBytes (coltype2str col.type),
      strBytes (if col.index then "YES" else "NO")])
    printSeparator (by decide) rfl (fun _ _ => rfl) (prints_printSeparator ⟨3⟩)
  have hget : db.getTable tabName = .ok tab := by
    unfold DbMeta.getTable
    rw [htab]
  have hlen : 59 * (tab.cols.length + 4) = (19 * 3 + 2) * (tab.cols.length + 3) + (19 * 3 + 2) := by
    omega
  rw [hlen]
  unfold descTable
  rw [hget]
  exact h

theorem prints_printResult (floatStr : Int → List UInt8) (q : QueryResult) :
    Prints (printResult floatStr q) ((19 * q.selCols.length + 2) * (q.rows.length + 4) + 18
      + (putNat q.rows.length).length) := by
  have hcols : q.selCols.length ≠ 0 := fun h => q.nonempty (List.eq_nil_of_length_eq_zero h)
  have h := prints_table ⟨q.selCols.length⟩ (q.selCols.map fun selCol => strBytes selCol.colName)
    q.rows (fun rec => q.cols.map (colStr floatStr rec))
    (fun printer => do printer.printSeparator; printRecordCount q.rows.length) hcols (List.length_map _)
    (fun _ _ => (List.length_map _).trans q.same)
    ((prints_printSeparator ⟨q.selCols.length⟩).bind (prints_printRecordCount q.rows.length))
  have hlen : (19 * q.selCols.length + 2) * (q.rows.length + 4) + 18 + (putNat q.rows.length).length
      = (19 * q.selCols.length + 2) * (q.rows.length + 3)
        + (19 * q.selCols.length + 2 + (18 + (putNat q.rows.length).length)) := by
    ring
  rw [hlen]
  exact h

/-! ## The send buffer -/

/-- A command that prints. -/
inductive PrintCommand where
  | showTables
  | descTable (tabName : String)
  | selectFrom (q : QueryResult)

namespace PrintCommand

def run (db : DbMeta) (floatStr : Int → List UInt8) : PrintCommand → PrintM Unit
  | .showTables => Rucbase.showTables db
  | .descTable tabName => Rucbase.descTable db tabName
  | .selectFrom q => printResult floatStr q

/-- The result is small enough: 386 tables, 134 columns of a table, or as many rows as there is room
for with so many columns. -/
def Small (db : DbMeta) : PrintCommand → Prop
  | .showTables => db.tabs.size ≤ 386
  | .descTable tabName => ∀ tab : TabMeta, db.tabs[tabName]? = some tab → tab.cols.length ≤ 134
  | .selectFrom q => (19 * q.selCols.length + 2) * (q.rows.length + 4) + 18
      + (putNat q.rows.length).length ≤ 8191

/-- From offset 0 on, every copy that `x` makes ends before the last byte of `data_send`. -/
def StaysInside (x : PrintM Unit) : Prop :=
  ∀ data : Int → UInt8, match x.run ⟨data, 0, []⟩ with
    | .ok _ b => b.Inside (bufferLength - 1)
    | .error _ b => b.Inside (bufferLength - 1)

theorem staysInside_iff {x : PrintM Unit} {n : Nat} (h : Prints x n) : StaysInside x ↔ n ≤ 8191 := by
  obtain ⟨strs, rfl, hrun⟩ := h
  have hinside : ∀ data, ((⟨data, 0, []⟩ : Appender).appendAll strs).Inside 8191
      ↔ Appender.total strs ≤ 8191 := by
    intro data
    rw [Appender.inside_appendAll (le_refl 0) (by dsimp only; omega) (by decide)]
    constructor
    · rintro ⟨_, hroom⟩
      dsimp only at hroom
      omega
    · exact fun hroom => ⟨by simp [Appender.Inside], by dsimp only; omega⟩
  constructor
  · intro hall
    have hdata := hall fun _ => 0
    rw [hrun] at hdata
    exact (hinside _).mp hdata
  · intro hroom data
    rw [hrun]
    exact (hinside data).mpr hroom

/-- **The text stays inside the send buffer** if and only if the result is small enough. -/
theorem run_staysInside_iff (db : DbMeta) (floatStr : Int → List UInt8) (c : PrintCommand) :
    StaysInside (c.run db floatStr) ↔ c.Small db := by
  cases c with
  | showTables =>
      show StaysInside (Rucbase.showTables db) ↔ db.tabs.size ≤ 386
      rw [staysInside_iff (prints_showTables db)]
      omega
  | selectFrom q => exact staysInside_iff (prints_printResult floatStr q)
  | descTable tabName =>
      show StaysInside (Rucbase.descTable db tabName) ↔ ∀ tab, _
      cases htab : db.tabs[tabName]? with
      | some tab =>
          rw [staysInside_iff (prints_descTable htab)]
          constructor
          · rintro hroom tab' h
            obtain rfl := Option.some.inj h
            omega
          · intro hsmall
            have := hsmall tab rfl
            omega
      | none =>
          -- an unknown table: nothing is printed
          refine iff_of_true (fun data => ?_) (fun tab h => absurd h (by simp))
          have hrun : (Rucbase.descTable db tabName).run ⟨data, 0, []⟩
              = .error (.tableNotFoundError tabName) ⟨data, 0, []⟩ := by
            unfold Rucbase.descTable DbMeta.getTable
            rw [htab]
            rfl
          rw [hrun]
          show ∀ e ∈ ([] : List Int), _
          simp

end PrintCommand

/-- 386 rows of one column. -/
def manyRows : QueryResult where
  selCols := [⟨"t", "a"⟩]
  cols := [⟨"t", "a", .typeInt, 4, 0, false⟩]
  rows := List.replicate 386 ⟨4, fun _ => 0⟩
  same := rfl
  nonempty := by simp
  lens := by simp

/-- `select * from t;` with 386 rows does not fit. -/
theorem manyRows_overrun : ¬ PrintCommand.StaysInside ((PrintCommand.selectFrom manyRows).run ⟨"db", ∅⟩
    fun _ => []) := by
  have hrows : manyRows.rows.length = 386 := List.length_replicate
  have hcols : manyRows.selCols.length = 1 := rfl
  rw [PrintCommand.run, PrintCommand.staysInside_iff (prints_printResult _ manyRows), hrows, hcols]
  omega

end Rucbase
