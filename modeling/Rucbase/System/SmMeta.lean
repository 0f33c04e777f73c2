import Rucbase.Lib.TextStream
import Rucbase.System.SmManager

/-!
# The catalog as a text

The operators `<<` and `>>` of `system/sm_meta.h`: a catalog is written to `db.meta` as a text of
words and numbers between white space, and read from there. For the catalogs that the system has,
whose names are words, what is read is what was written.
-/

namespace Rucbase

open Lib

/-- What C++ leaves open when a read fails: the values of locals that were never set, and the
`ColType` of a number that is none. -/
structure Indeterminate where
  size : Nat
  int : Int
  bool : Bool
  type : Int → ColType

/-! ## Writing -/

/-- `os << col`. -/
def ColMeta.write (col : ColMeta) : List Char :=
  col.tabName.toList ++ ([' '] ++ (col.name.toList ++ ([' '] ++ (putInt col.type.toInt
    ++ ([' '] ++ (putInt col.len ++ ([' '] ++ (putInt col.offset ++ ([' '] ++ putBool col.index)))))))))

/-- `os << tab`. -/
def TabMeta.write (tab : TabMeta) : List Char :=
  tab.name.toList ++ (['\n'] ++ (putNat tab.cols.length ++ (['\n']
    ++ tab.cols.flatMap fun col => col.write ++ ['\n'])))

/-- `os << db_meta`. -/
def DbMeta.write (db : DbMeta) : List Char :=
  db.name.toList ++ (['\n'] ++ (putNat db.tabs.size ++ (['\n']
    ++ db.tabs.toList.flatMap fun entry => entry.2.write ++ ['\n'])))

/-! ## Reading -/

/-- `static_cast<ColType>(int_val)`. -/
def ColType.ofInt (u : Indeterminate) : Int → ColType
  | 0 => .typeInt
  | 1 => .typeFloat
  | 2 => .typeString
  | v => u.type v

/-- `is >> enum_val`, for a `ColType`. -/
def ColType.read (u : Indeterminate) : Reader ColType := do
  let v ← readInt u.int
  return .ofInt u v

/-- `is >> col`. -/
def ColMeta.read (u : Indeterminate) (col : ColMeta) : Reader ColMeta := do
  let tabName ← readWord col.tabName
  let name ← readWord col.name
  let type ← ColType.read u
  let len ← readInt col.len
  let offset ← readInt col.offset
  let index ← readBool col.index
  return ⟨tabName, name, type, len, offset, index⟩

/-- `ColMeta col;`. -/
def ColMeta.local (u : Indeterminate) : ColMeta := ⟨"", "", u.type u.int, u.int, u.int, u.bool⟩

/-- `is >> tab`. -/
def TabMeta.read (u : Indeterminate) (tab : TabMeta) : Reader TabMeta := do
  let name ← readWord tab.name
  let n ← readSize u.size
  let cols ← times ((ColMeta.local u).read u) (fun cols col => cols ++ [col]) n tab.cols
  return ⟨name, cols⟩

/-- `is >> db_meta`. -/
def DbMeta.read (u : Indeterminate) (db : DbMeta) : Reader DbMeta := do
  let name ← readWord db.name
  let n ← readSize u.size
  let tabs ← times (TabMeta.read u ⟨"", []⟩) (fun tabs tab => tabs.insert tab.name tab) n db.tabs
  return ⟨name, tabs⟩

/-! ## Catalogs that can be read back -/

/-- A name as the lexer makes them: not empty, and no white space in it. -/
def IsWord (s : String) : Prop := s ≠ "" ∧ ∀ c ∈ s.toList, isSpace c = false

instance (s : String) : Decidable (IsWord s) :=
  @instDecidableAnd _ _ _ (List.decidableBAll (fun c => isSpace c = false) s.toList)

/-- The names are words, and the numbers are `int`s. -/
structure ColMeta.Plain (col : ColMeta) : Prop where
  tabName : IsWord col.tabName
  name : IsWord col.name
  len : IsInt32 col.len
  offset : IsInt32 col.offset

/-- `cols.size()` is a `size_t`. -/
structure TabMeta.Plain (tab : TabMeta) : Prop where
  name : IsWord tab.name
  size : tab.cols.length < 18446744073709551616
  cols : ∀ col ∈ tab.cols, col.Plain

/-- Every table is under its own name, and `tabs_.size()` is a `size_t`. -/
structure DbMeta.Plain (db : DbMeta) : Prop where
  name : IsWord db.name
  size : db.tabs.size < 18446744073709551616
  key : ∀ (k : String) (tab : TabMeta), db.tabs[k]? = some tab → tab.name = k
  tabs : ∀ (k : String) (tab : TabMeta), db.tabs[k]? = some tab → tab.Plain

theorem IsWord.solid {s : String} (h : IsWord s) : Solid s.toList :=
  ⟨fun hnil => h.1 (String.toList_eq_nil_iff.mp hnil), h.2⟩

theorem blank_space : Blank [' '] := by
  simp [Blank, isSpace]

theorem blank_newline : Blank ['\n'] := by
  simp [Blank, isSpace]

variable {u : Indeterminate} {col : ColMeta} {tab : TabMeta} {db : DbMeta}

theorem ColType.reads (type : ColType) : ReadsBack (ColType.read u) (putInt type.toInt) [] type := by
  have hint : ReadsBack (readInt u.int) (putInt type.toInt) [] type.toInt := by
    refine reads_int _ ?_
    cases type <;> decide
  have hcast : ColType.ofInt u type.toInt = type := by
    cases type <;> rfl
  have h := hint.map (ColType.ofInt u)
  rw [hcast] at h
  exact h

/-- A column is read back. -/
theorem ColMeta.reads (h : col.Plain) (col' : ColMeta) : ReadsBack (col'.read u) col.write [] col := by
  refine (reads_word _ h.tabName.solid).bind blank_space (by simp) ?_
  refine (reads_word _ h.name.solid).bind blank_space (by simp) ?_
  refine (ColType.reads col.type).bind blank_space (by simp) ?_
  refine (reads_int _ h.len).bind blank_space (by simp) ?_
  refine (reads_int _ h.offset).bind blank_space (by simp) ?_
  exact (reads_bool _).map (ColMeta.mk col.tabName col.name col.type col.len col.offset)

theorem foldl_pushBack {α : Type} (as bs : List α) :
    as.foldl (fun as a => as ++ [a]) bs = bs ++ as := by
  induction as generalizing bs with
  | nil => exact (List.append_nil bs).symm
  | cons a as ih => rw [List.foldl_cons, ih, List.append_assoc, List.singleton_append]

/-- A table is read back, but for the line end behind its last line. -/
theorem TabMeta.reads (h : tab.Plain) :
    ReadsBack (TabMeta.read u ⟨"", []⟩) tab.write ['\n'] tab := by
  refine (reads_word _ h.name.solid).bind blank_newline (by simp) ?_
  have hcols := reads_counted u.size (fun cols col => cols ++ [col]) [] (TabMeta.mk tab.name) h.size
    (fun col hcol => ColMeta.reads (u := u) (h.cols col hcol) (ColMeta.local u)) blank_newline (by simp)
    blank_newline (by simp)
  rw [foldl_pushBack, List.nil_append, List.nil_append, ite_self] at hcols
  exact hcols

/-- The tables of a catalog, in the order they are written in. -/
def DbMeta.tables (db : DbMeta) : List TabMeta := db.tabs.toList.map Prod.snd

theorem DbMeta.write_eq : db.write = db.name.toList ++ (['\n'] ++ (putNat db.tables.length ++ (['\n']
    ++ db.tables.flatMap fun tab => tab.write ++ ['\n']))) := by
  unfold DbMeta.write DbMeta.tables
  rw [List.length_map, Std.TreeMap.length_toList, List.flatMap_map]

theorem DbMeta.mem_tables (h : db.Plain) : tab ∈ db.tables ↔ db.tabs[tab.name]? = some tab := by
  unfold DbMeta.tables
  rw [List.mem_map]
  constructor
  · rintro ⟨⟨k, tab'⟩, hmem, rfl⟩
    have hk := Std.TreeMap.mem_toList_iff_getElem?_eq_some.mp hmem
    rw [h.key k tab' hk]
    exact hk
  · intro htab
    exact ⟨(tab.name, tab), Std.TreeMap.mem_toList_iff_getElem?_eq_some.mpr htab, rfl⟩

/-- The map that the tables are entered into is the one they were taken from. -/
theorem DbMeta.tables_foldl (h : db.Plain) (k : String) :
    (db.tables.foldl (fun tabs tab => tabs.insert tab.name tab) (∅ : Std.TreeMap String TabMeta))[k]?
      = db.tabs[k]? := by
  have hentries : db.tables.foldl (fun tabs tab => tabs.insert tab.name tab) (∅ : Std.TreeMap String TabMeta)
      = db.tabs.toList.foldl (fun tabs entry => tabs.insert entry.1 entry.2) ∅ := by
    unfold DbMeta.tables
    rw [List.foldl_map]
    refine List.foldl_ext _ _ _ fun tabs entry hmem => ?_
    rw [h.key entry.1 entry.2 (Std.TreeMap.mem_toList_iff_getElem?_eq_some.mp hmem)]
  rw [hentries, ← Std.TreeMap.ofList_equiv_foldl.getElem?_eq]
  cases hk : db.tabs[k]? with
  | some tab =>
      exact Std.TreeMap.getElem?_ofList_of_mem Std.ReflCmp.compare_self Std.TreeMap.distinct_keys_toList
        (Std.TreeMap.mem_toList_iff_getElem?_eq_some.mpr hk)
  | none =>
      refine Std.TreeMap.getElem?_ofList_of_contains_eq_false ?_
      rw [Std.TreeMap.map_fst_toList_eq_keys]
      by_contra hin
      have hmem : k ∈ db.tabs := by simpa using hin
      rw [Std.TreeMap.getElem?_eq_some_getElem hmem] at hk
      exact absurd hk (by simp)

/-- **A catalog is read back**, and no more than the line ends that belong to it are left of it. -/
theorem DbMeta.reads (h : db.Plain) :
    ReadsBack (DbMeta.read u ⟨"", ∅⟩) db.write (if db.tables = [] then ['\n'] else ['\n', '\n'])
      ⟨db.name, db.tables.foldl (fun tabs tab => tabs.insert tab.name tab) ∅⟩ := by
  rw [DbMeta.write_eq]
  refine (reads_word _ h.name.solid).bind blank_newline (by simp) ?_
  have hsize : db.tables.length < 18446744073709551616 := by
    rw [DbMeta.tables, List.length_map, Std.TreeMap.length_toList]
    exact h.size
  exact reads_counted u.size (fun tabs tab => tabs.insert tab.name tab) ∅ (DbMeta.mk db.name) hsize
    (fun tab htab => TabMeta.reads (h.tabs _ _ ((DbMeta.mem_tables h).mp htab))) blank_newline (by simp)
    (blank_newline.append blank_newline) (by simp)

/-- **The catalog round-trips**: the same name, and under every name the same table, with the same
columns. What is left is the line end behind the catalog, and the one behind its last table. -/
theorem DbMeta.read_write (u : Indeterminate) (db : DbMeta) (h : db.Plain) (rest : List Char) :
    ∃ db', (DbMeta.read u ⟨"", ∅⟩).run ⟨db.write ++ rest, false⟩
        = (db', ⟨(if db.tables = [] then ['\n'] else ['\n', '\n']) ++ rest, false⟩)
      ∧ db'.name = db.name ∧ ∀ k : String, db'.tabs[k]? = db.tabs[k]? := by
  refine ⟨_, DbMeta.reads h [] rest (by simp [Blank]) ?_, rfl, DbMeta.tables_foldl h⟩
  split
  · exact blank_newline.delimited (by simp)
  · exact (blank_newline.append blank_newline).delimited (by simp)

theorem DbMeta.read_write_orders :
    let id : ColMeta := ⟨"orders", "id", .typeInt, 4, 0, true⟩
    let note : ColMeta := ⟨"orders", "note", .typeString, 20, 4, false⟩
    let db : DbMeta := ⟨"shop", (∅ : Std.TreeMap String TabMeta).insert "orders" ⟨"orders", [id, note]⟩⟩
    ∃ db', (DbMeta.read ⟨7, 7, true, fun _ => .typeInt⟩ ⟨"", ∅⟩).run ⟨db.write ++ [], false⟩
        = (db', ⟨(if db.tables = [] then ['\n'] else ['\n', '\n']) ++ [], false⟩)
      ∧ db'.name = db.name ∧ ∀ k : String, db'.tabs[k]? = db.tabs[k]? := by
  intro id note db
  have hid : id.Plain := ⟨by decide, by decide, by decide, by decide⟩
  have hnote : note.Plain := ⟨by decide, by decide, by decide, by decide⟩
  have honly : ∀ (k : String) (tab : TabMeta), db.tabs[k]? = some tab →
      tab = ⟨"orders", [id, note]⟩ ∧ tab.name = k := by
    intro k tab hk
    rw [Std.TreeMap.getElem?_insert] at hk
    split at hk
    · next heq =>
        obtain rfl := Option.some.inj hk
        exact ⟨rfl, Std.LawfulEqCmp.eq_of_compare heq⟩
    · exact absurd hk (by simp)
  refine DbMeta.read_write _ db ⟨by decide, ?_, fun k tab hk => (honly k tab hk).2, fun k tab hk => ?_⟩ []
  · have := Std.TreeMap.size_insert_le (t := (∅ : Std.TreeMap String TabMeta)) (k := "orders")
      (v := ⟨"orders", [id, note]⟩)
    exact Nat.lt_of_le_of_lt this (by rw [Std.TreeMap.size_emptyc]; omega)
  · obtain ⟨rfl, _⟩ := honly k tab hk
    refine ⟨by decide, by decide, fun col hcol => ?_⟩
    rcases List.mem_cons.mp hcol with rfl | hcol
    · exact hid
    · obtain rfl := List.mem_singleton.mp hcol
      exact hnote

end Rucbase
