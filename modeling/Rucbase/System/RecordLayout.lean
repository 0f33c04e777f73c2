import Rucbase.System.SmManager
import Mathlib.Algebra.BigOperators.Ring.Finset
import Mathlib.Algebra.Order.BigOperators.Group.List
import Mathlib.Data.Int.Interval

/-!
# The layout of a record

`create_table` only looks at the sum of the column lengths, as far as an `int` holds it, and a
length may be any `int`. Columns have disjoint byte ranges that fill the record exactly if no
length is negative and the sum is at most `RM_MAX_RECORD_SIZE`; and only then: a negative length
lets the others have more bytes together than the record.
-/

namespace Rucbase.Lib

/-- Disjoint sets inside another one are not larger together. -/
theorem sum_card_le {α : Type} [DecidableEq α] :
    ∀ {l : List (Finset α)} {S : Finset α}, (∀ A ∈ l, A ⊆ S) → l.Pairwise Disjoint →
      (l.map Finset.card).sum ≤ S.card
  | [], S, _, _ => Nat.zero_le _
  | A :: l, S, hsub, hdis => by
      obtain ⟨hA, hl⟩ := List.pairwise_cons.mp hdis
      obtain ⟨hAS, hlS⟩ := List.forall_mem_cons.mp hsub
      have hrest : (l.map Finset.card).sum ≤ (S \ A).card :=
        sum_card_le (fun B hB => Finset.subset_sdiff.mpr ⟨hlS B hB, (hA B hB).symm⟩) hl
      rw [List.map_cons, List.sum_cons, ← Finset.card_sdiff_add_card_eq_card hAS]
      omega

end Rucbase.Lib

namespace Rucbase

open Lib

/-- Byte `i` of a record lies in `[offset, offset + len)`. -/
def ColMeta.HasByte (c : ColMeta) (i : Int) : Prop := c.offset ≤ i ∧ i < c.offset + c.len

/-- **The layout is sound**: the columns lie in the record, apart from each other, and the record is
as long as they are together. -/
structure SoundLayout (cols : List ColMeta) (recordSize : Int) : Prop where
  inside : ∀ c ∈ cols, ∀ i, c.HasByte i → 0 ≤ i ∧ i < recordSize
  disjoint : cols.Pairwise fun a b => ∀ i, a.HasByte i → ¬ b.HasByte i
  exact_size : recordSize = (cols.map ColMeta.len).sum

variable {cols : List ColMeta} {recordSize : Int}

/-- What the columns of a sound layout take up fits the record. -/
theorem SoundLayout.sum_le (h : SoundLayout cols recordSize) (h0 : 0 ≤ recordSize) :
    (cols.map fun c => (c.len.toNat : Int)).sum ≤ recordSize := by
  let range (c : ColMeta) : Finset Int := Finset.Ico c.offset (c.offset + c.len)
  have hcard : ((cols.map range).map Finset.card).sum ≤ (Finset.Ico 0 recordSize).card := by
    refine sum_card_le (fun A hA i hi => ?_) (List.pairwise_map.mpr (h.disjoint.imp fun hab => ?_))
    · obtain ⟨c, hc, rfl⟩ := List.mem_map.mp hA
      exact Finset.mem_Ico.mpr (h.inside c hc i (Finset.mem_Ico.mp hi))
    · exact Finset.disjoint_left.mpr fun i ha hb =>
        hab i (Finset.mem_Ico.mp ha) (Finset.mem_Ico.mp hb)
  have hlen : (cols.map range).map Finset.card = cols.map fun c => c.len.toNat := by
    rw [List.map_map]
    refine List.map_congr_left fun c _ => ?_
    show (Finset.Ico c.offset (c.offset + c.len)).card = c.len.toNat
    rw [Int.card_Ico, add_sub_cancel_left]
  rw [hlen, Int.card_Ico, sub_zero] at hcard
  calc (cols.map fun c => (c.len.toNat : Int)).sum
      = ((cols.map fun c => c.len.toNat).sum : Nat) := by
        rw [Nat.cast_list_sum, List.map_map]
        rfl
    _ ≤ (recordSize.toNat : Int) := Int.ofNat_le.mpr hcard
    _ = recordSize := Int.toNat_of_nonneg h0

/-- In a sound layout no column has a negative length. -/
theorem SoundLayout.len_nonneg (h : SoundLayout cols recordSize) (h0 : 0 ≤ recordSize) :
    ∀ c ∈ cols, 0 ≤ c.len := by
  intro c hc
  by_contra hneg
  have hlt : (cols.map ColMeta.len).sum < (cols.map fun c => (c.len.toNat : Int)).sum :=
    List.sum_lt_sum _ _ (fun d _ => Int.self_le_toNat d.len) ⟨c, hc, by omega⟩
  have hle := h.sum_le h0
  rw [← h.exact_size] at hlt
  omega

namespace SmManager

variable {u : Unspecified} {tabName : String} {curr : Int} {colDefs : List ColDef}

theorem layout_len (u : Unspecified) (tabName : String) : ∀ (colDefs : List ColDef) (curr : Int),
    (layout u tabName curr colDefs).1.map ColMeta.len = colDefs.map ColDef.len
  | [], _ => rfl
  | colDef :: colDefs, curr => by
      rw [layout, List.map_cons, List.map_cons, layout_len u tabName colDefs]

/-- Lengths that are not negative and fit an `int` together are laid out one after another. -/
theorem layout_exact (u : Unspecified) (tabName : String) :
    ∀ (colDefs : List ColDef) (curr : Int), (∀ d ∈ colDefs, 0 ≤ d.len) → 0 ≤ curr →
      IsInt32 (curr + (colDefs.map ColDef.len).sum) →
      (layout u tabName curr colDefs).2 = curr + (colDefs.map ColDef.len).sum
        ∧ (∀ c ∈ (layout u tabName curr colDefs).1, ∀ i, c.HasByte i →
            curr ≤ i ∧ i < curr + (colDefs.map ColDef.len).sum)
        ∧ (layout u tabName curr colDefs).1.Pairwise fun a b => ∀ i, a.HasByte i → ¬ b.HasByte i
  | [], curr, _, _, _ => by simp [layout]
  | colDef :: colDefs, curr, hlen, h0, hint => by
      obtain ⟨hd, hds⟩ := List.forall_mem_cons.mp hlen
      have hsum : 0 ≤ (colDefs.map ColDef.len).sum := by
        refine List.sum_nonneg fun n hn => ?_
        obtain ⟨d, hd, rfl⟩ := List.mem_map.mp hn
        exact hds d hd
      rw [List.map_cons, List.sum_cons, ← add_assoc] at hint ⊢
      have hadd : u.addInt curr colDef.len = curr + colDef.len := by
        unfold IsInt32 at hint
        exact if_pos ⟨by omega, by omega⟩
      obtain ⟨hsize, hin, hdis⟩ := layout_exact u tabName colDefs (curr + colDef.len) hds
        (by omega) hint
      rw [layout, hadd]
      refine ⟨hsize, List.forall_mem_cons.mpr ⟨fun i hi => ?_, fun c hc i hi => ?_⟩,
        List.pairwise_cons.mpr ⟨fun c hc i hi hi' => ?_, hdis⟩⟩
      · obtain ⟨hlow, hhigh⟩ := hi
        dsimp only at hlow hhigh
        omega
      · have := hin c hc i hi
        omega
      · -- what comes behind the column starts where it ends
        obtain ⟨_, hhigh⟩ := hi
        have := hin c hc i hi'
        dsimp only at hhigh
        omega

/-- **A layout is sound** exactly if no length is negative and the lengths do not exceed the largest
record, provided its size is one `create_file` accepts. -/
theorem soundLayout_iff (h1 : 1 ≤ (layout u tabName 0 colDefs).2)
    (h2 : (layout u tabName 0 colDefs).2 ≤ rmMaxRecordSize) :
    SoundLayout (layout u tabName 0 colDefs).1 (layout u tabName 0 colDefs).2
      ↔ (∀ d ∈ colDefs, 0 ≤ d.len) ∧ (colDefs.map ColDef.len).sum ≤ rmMaxRecordSize := by
  have hlens := layout_len u tabName colDefs 0
  constructor
  · intro h
    have hexact := h.exact_size
    rw [hlens] at hexact
    refine ⟨fun d hd => ?_, hexact ▸ h2⟩
    have hmem : d.len ∈ (layout u tabName 0 colDefs).1.map ColMeta.len :=
      hlens ▸ List.mem_map_of_mem hd
    obtain ⟨c, hc, hcd⟩ := List.mem_map.mp hmem
    exact hcd ▸ h.len_nonneg (by omega) c hc
  · rintro ⟨hlen, hmax⟩
    have hsum : 0 ≤ (colDefs.map ColDef.len).sum := by
      refine List.sum_nonneg fun n hn => ?_
      obtain ⟨d, hd, rfl⟩ := List.mem_map.mp hn
      exact hlen d hd
    have hint : IsInt32 (0 + (colDefs.map ColDef.len).sum) := by
      unfold rmMaxRecordSize at hmax
      exact ⟨by omega, by omega⟩
    obtain ⟨hsize, hin, hdis⟩ := layout_exact u tabName colDefs 0 hlen (le_refl _) hint
    rw [zero_add] at hsize
    simp only [zero_add] at hin
    exact ⟨fun c hc => hsize ▸ hin c hc, hdis, hsize.trans (congrArg List.sum hlens).symm⟩

/-! ## The result -/

/-- **The tables that `CREATE TABLE` lets in.** The layout of one is sound if and only if the
statement has no negative length and the lengths come to no more than the largest record. -/
theorem created_layout_sound_iff {stmt : CreateTable} {fd fd' : Int} {s s' : SmManager}
    (h : (execCreateTable u stmt fd fd').run s = .ok ⟨⟩ s') :
    ∃ tab, s'.db.tabs[stmt.tabName]? = some tab
      ∧ (SoundLayout tab.cols (layout u stmt.tabName 0 (stmt.colDefs u)).2
        ↔ (∀ d ∈ stmt.colDefs u, 0 ≤ d.len)
          ∧ ((stmt.colDefs u).map ColDef.len).sum ≤ rmMaxRecordSize) := by
  obtain ⟨h1, h2, htab⟩ := createTable_ok h
  exact ⟨_, htab, soundLayout_iff h1 h2⟩

/-- A `CHAR` field, its length of one digit. -/
def charField (colName : String) (sign : Option Sign) (digit : Fin 10) : Field :=
  ⟨colName, .char ⟨sign, [digit], by simp⟩⟩

/-- `CREATE TABLE t (a CHAR(8), b INT, c CHAR(0))`. -/
def threeColumns : CreateTable :=
  ⟨"t", [charField "a" none 8, ⟨"b", .int⟩, charField "c" none 0], by simp⟩

/-- `CREATE TABLE t (a CHAR(8), b CHAR(-4), c CHAR(8))`. -/
def negativeColumn : CreateTable :=
  ⟨"t", [charField "a" none 8, charField "b" (some .minus) 4, charField "c" none 8], by simp⟩

/-- A database without tables, on an empty file system. -/
def emptyDb : SmManager where
  db := ⟨"db", ∅⟩
  fhs := fun _ => none
  pool := .new 1 (.new fun _ => none) 0

/-- Nothing overflows in what follows. -/
def noOverflow : Unspecified := ⟨fun _ => 0, fun _ _ => 0⟩

theorem created_layout_sound_iff_three_columns :
    ∃ s' tab, (execCreateTable noOverflow threeColumns 3 3).run emptyDb = .ok ⟨⟩ s'
      ∧ s'.db.tabs["t"]? = some tab ∧ SoundLayout tab.cols 12 := by
  have hok : (match (execCreateTable noOverflow threeColumns 3 3).run emptyDb with
    | .ok _ _ => true
    | .error _ _ => false) = true := by decide +kernel
  cases hrun : (execCreateTable noOverflow threeColumns 3 3).run emptyDb with
  | error e t => simp [hrun] at hok
  | ok a s' =>
      obtain ⟨tab, htab, hsound⟩ := created_layout_sound_iff hrun
      exact ⟨s', tab, rfl, htab, hsound.mpr (by decide)⟩

/-- The negative length lets the first column and the last overlap, in a record of twelve bytes. -/
theorem negativeColumn_overlaps :
    ∃ s' tab, (execCreateTable noOverflow negativeColumn 3 3).run emptyDb = .ok ⟨⟩ s'
      ∧ s'.db.tabs["t"]? = some tab
      ∧ (layout noOverflow "t" 0 (negativeColumn.colDefs noOverflow)).2 = 12
      ∧ tab.cols.map (fun c => (c.offset, c.len)) = [(0, 8), (8, -4), (4, 8)]
      ∧ ¬ SoundLayout tab.cols 12 := by
  have hok : (match (execCreateTable noOverflow negativeColumn 3 3).run emptyDb with
    | .ok _ _ => true
    | .error _ _ => false) = true := by decide +kernel
  cases hrun : (execCreateTable noOverflow negativeColumn 3 3).run emptyDb with
  | error e t => simp [hrun] at hok
  | ok a s' =>
      obtain ⟨_, _, htab⟩ := createTable_ok hrun
      refine ⟨s', _, rfl, htab, by decide, by decide, fun hsound => ?_⟩
      have hfirst := (List.pairwise_cons.mp hsound.disjoint).1 _ (.tail _ (.head _)) 4
      exact hfirst ⟨by decide, by decide⟩ ⟨by decide, by decide⟩

end SmManager

end Rucbase
