import Rucbase.Execution.RowDecoding
import Rucbase.Execution.SeqScan

/-!
# What a condition means

A condition `a op b` on two columns goes through three hands before it is decided: the scan turns it
round if `a` is a column of another table, `feed` puts a value in the place of the other table's
column, and `eval_cond` compares as many bytes as the left column has. For integers the outcome is
`a op b`. For strings the length of the left column decides which bytes are looked at: a longer right
value is cut off, and behind a shorter right column there are the next columns of the row, and memory
that is not the row's. The outcome has to be right whatever that memory holds.
-/

namespace Rucbase

open Lib SeqScanExecutor

/-- The way of one condition through the scan of table `tabName`, whose current row is `rec`; the row
of the tables before it is `feedRec`. -/
def evaluate (heap : TabCol → Nat → UInt8) (tabName : String) (cols : List ColMeta) (rec : RmRecord)
    (feedCols : List ColMeta) (feedRec : RmRecord) (cond : Condition) : Except RedBaseError Bool := do
  let cond ← swapSides tabName cond
  let feedDict ← rec2dict heap feedCols feedRec
  let cond ← feedCond tabName feedDict cond
  if runtimeCond tabName cond then evalCond cols cond rec else throw .assertionFailure

/-- The order of two values of one type. -/
def Datum.compare : Datum → Datum → Ordering
  | .int v, .int w => Ord.compare v.toInt w.toInt
  | .str s, .str t => Ord.compare s t
  | _, _ => .eq

/-- The row in other surroundings: `after` is what memory holds behind its end. -/
def RmRecord.followedBy (rec : RmRecord) (after : Nat → UInt8) : RmRecord :=
  { rec with data := fun i => if i < rec.size.toNat then rec.data i else after i }

/-- The bytes of the row behind column `r`, no more than `n`. A value that `feed` put in the place of
the column has a buffer of its own, with nothing behind it. -/
def rowBehind (tabName : String) (rec : RmRecord) (r : ColMeta) (n : Nat) : List UInt8 :=
  if r.tabName = tabName then
    firstBytes (fun i => r.field rec (r.len.toNat + i))
      (min n (rec.size.toNat - (r.offset.toNat + r.len.toNat)))
  else []

/-- The bytes are zeros: there is nothing more of a string. -/
def ZeroBytes (bytes : List UInt8) : Prop := ∀ x ∈ bytes, x = 0

instance (bytes : List UInt8) : Decidable (ZeroBytes bytes) := List.decidableBAll _ bytes

/-- The longer left column has the bytes `rest` where the right one has ended, and `next` is what is
known of the bytes that they are compared with. For `=` the known bytes have to make the difference,
if there is one, and have to be zeros throughout if there is none; for the orders they have to be
less, unless the operator does not care. -/
def RestDecided (op : CompOp) (rest next : List UInt8) : Prop :=
  match op with
  | .eq | .ne => if ZeroBytes rest then next = rest else next ≠ rest.take next.length
  | .gt | .le => ZeroBytes rest ∨ Ord.compare next (rest.take next.length) = .lt
  | .lt | .ge => Ord.compare next (rest.take next.length) = .lt
      ∨ next = rest.take next.length ∧ ∀ x ∈ rest.drop next.length, x = 255

/-- What the columns and the values have to be for the outcome to be right. `l` and `r` are the
lengths of the columns on the left and on the right, and `next` the bytes of the row behind the right
one. If strings do not differ within the shorter column, then either the left column is not the longer
one, and the right value has no more than `l` characters or the operator does not care, or the rest of
the left column decides. -/
def Decided (op : CompOp) (l r : Nat) (next : List UInt8) : Datum → Datum → Prop
  | .str s, .str t =>
      s.take (min l r) ≠ t.take (min l r) ∨
        if l ≤ r then t.length ≤ l ∨ op = .gt ∨ op = .le
        else RestDecided op (firstBytes (padded (s.drop r)) (l - r)) next
  | _, _ => True

/-- The outcome is right with the bytes `behind` following the right value. -/
def DecidedWith (op : CompOp) (l r : Nat) (behind : Nat → UInt8) : Datum → Datum → Prop
  | .str s, .str t =>
      s.take (min l r) ≠ t.take (min l r) ∨
        if l ≤ r then t.length ≤ l ∨ op = .gt ∨ op = .le
        else op.test (memcmp (l - r) (padded (s.drop r)) behind) = op.test (Ord.compare (s.drop r) [])
  | _, _ => True

variable {op : CompOp} {o : Ordering} {cols : List ColMeta} {c l r : ColMeta} {v w : Datum}
  {p q : Nat → UInt8} {rec : RmRecord} {t : String}

/-! ## Comparing bytes -/

/-- Turning a condition round does not change it. -/
theorem swap_test : op.swap.test o.swap = op.test o := by
  cases op <;> cases o <;> rfl

theorem Datum.compare_swap (v w : Datum) : (v.compare w).swap = w.compare v := by
  cases v with
  | int a =>
      cases w with
      | int b =>
          have h : Ord.compare b.toInt a.toInt = (Ord.compare a.toInt b.toInt).swap :=
            Std.OrientedCmp.eq_swap
          exact h.symm
      | float b => rfl
      | str u => rfl
  | float a => cases w <;> rfl
  | str s =>
      cases w with
      | int b => rfl
      | float b => rfl
      | str u =>
          have h : Ord.compare u s = (Ord.compare s u).swap := Std.OrientedCmp.eq_swap
          exact h.symm

/-- Which operators cannot tell `=` from `<`. -/
theorem test_eq_lt : op.test .eq = op.test .lt ↔ op = .gt ∨ op = .le := by
  cases op <;> decide

/-- `memcmp` with the length of the left column: first what both columns have, then the rest of the
left one. -/
theorem memcmp_columns {s u : List UInt8} {m n : Nat} (hs : ∀ x ∈ s, x ≠ 0) (hu : ∀ x ∈ u, x ≠ 0)
    (hp : ∀ i, i < m → p i = padded s i) (hq : ∀ i, i < n → q i = padded u i) :
    memcmp m p q = (compare (s.take (min m n)) (u.take (min m n))).then
      (memcmp (m - n) (padded (s.drop n)) fun i => q (n + i)) := by
  have hsplit : min m n + (m - n) = m := by omega
  rw [← memcmp_padded hs hu, ← memcmp_congr (fun i hi => hp i (by omega)) fun i hi => hq i (by omega)]
  conv_lhs => rw [← hsplit, memcmp_add]
  refine congrArg _ (memcmp_congr (fun i hi => ?_) fun i hi => ?_)
  · rw [padded_drop, hp _ (by omega), show min m n = n by omega]
  · rw [show min m n = n by omega]

/-- Strings that agree within the shorter column: what the comparison of the rest has to say. -/
theorem rest_decides {s u : List UInt8} {m n : Nat} {behind : Nat → UInt8} (hs : s.length ≤ m)
    (hu : u.length ≤ n) :
    op.test (memcmp (m - n) (padded (s.drop n)) behind)
        = op.test (compare (s.drop (min m n)) (u.drop (min m n)))
      ↔ if m ≤ n then u.length ≤ m ∨ op = .gt ∨ op = .le
        else op.test (memcmp (m - n) (padded (s.drop n)) behind) = op.test (compare (s.drop n) []) := by
  by_cases hmn : m ≤ n
  · rw [if_pos hmn, Nat.min_eq_left hmn, Nat.sub_eq_zero_of_le hmn, List.drop_eq_nil_of_le hs]
    cases hrest : u.drop m with
    | nil => exact ⟨fun _ => .inl (List.drop_eq_nil_iff.mp hrest), fun _ => rfl⟩
    | cons x xs =>
        have hlong : ¬ u.length ≤ m := by
          intro h
          rw [List.drop_eq_nil_of_le h] at hrest
          exact absurd hrest (by simp)
        show op.test .eq = op.test .lt ↔ _
        rw [test_eq_lt]
        exact ⟨.inr, fun h => h.resolve_left hlong⟩
  · rw [if_neg hmn, Nat.min_eq_right (by omega), List.drop_eq_nil_of_le hu]

theorem memcmp_decides {s u : List UInt8} {m n : Nat} (hs : ∀ x ∈ s, x ≠ 0) (hu : ∀ x ∈ u, x ≠ 0)
    (hslen : s.length ≤ m) (hulen : u.length ≤ n) (hp : ∀ i, i < m → p i = padded s i)
    (hq : ∀ i, i < n → q i = padded u i) :
    op.test (memcmp m p q) = op.test (compare s u)
      ↔ DecidedWith op m n (fun i => q (n + i)) (.str s) (.str u) := by
  have hself : compare (u.take (min m n)) (u.take (min m n)) = .eq := Std.ReflCmp.compare_self
  rw [memcmp_columns hs hu hp hq, compare_take_drop (s := s) (t := u) (n := min m n)]
  by_cases heq : s.take (min m n) = u.take (min m n)
  · rw [heq, hself, Ordering.eq_then, Ordering.eq_then, rest_decides hslen hulen]
    exact ⟨.inr, fun h => h.resolve_left fun hne => hne heq⟩
  · have hdiff : ∀ o, (compare (s.take (min m n)) (u.take (min m n))).then o
        = compare (s.take (min m n)) (u.take (min m n)) := by
      intro o
      cases hc : compare (s.take (min m n)) (u.take (min m n)) with
      | lt => rfl
      | gt => rfl
      | eq => exact absurd (Std.LawfulEqOrd.eq_of_compare hc) heq
    rw [hdiff, hdiff]
    exact ⟨fun _ => .inl heq, fun _ => rfl⟩

/-- **A comparison decides the condition** exactly in the cases of `DecidedWith`. -/
theorem ixCompare_decides (hv : v.Fits l.type l.len) (hw : w.Fits r.type r.len)
    (htype : l.type = r.type) (hnum : l.type ≠ .typeFloat)
    (hp : ∀ i, i < l.len.toNat → p i = v.bytes i) (hq : ∀ i, i < r.len.toNat → q i = w.bytes i) :
    op.test (ixCompare p q l.type l.len) = op.test (v.compare w)
      ↔ DecidedWith op l.len.toNat r.len.toNat (fun i => q (r.len.toNat + i)) v w := by
  cases v with
  | float a => exact absurd hv.1 hnum
  | int a =>
      cases w with
      | float b => exact absurd (htype.trans hw.1) hnum
      | str s => exact absurd (hv.1.symm.trans (htype.trans hw.1)) (by simp)
      | int b =>
          obtain ⟨htint, hlen⟩ := hv
          obtain ⟨_, hlen'⟩ := hw
          rw [htint]
          show op.test (compare (int32At p 0) (int32At q 0)) = _ ↔ True
          rw [int32At_bytes fun i hi => hp i (by omega), int32At_bytes fun i hi => hq i (by omega)]
          exact ⟨fun _ => trivial, fun _ => rfl⟩
  | str s =>
      cases w with
      | float b => exact absurd (hv.1.symm.trans (htype.trans hw.1)) (by simp)
      | int b => exact absurd (hv.1.symm.trans (htype.trans hw.1)) (by simp)
      | str u =>
          obtain ⟨hstr, hslen, hs⟩ := hv
          obtain ⟨_, hulen, hu⟩ := hw
          rw [hstr]
          exact memcmp_decides hs hu (by omega) (by omega) hp hq

/-! ## Bytes that are not known -/

section

variable {rest next tail xs ys : List UInt8} {o' : Ordering}

theorem compare_replicate_zero (xs : List UInt8) :
    compare (List.replicate xs.length 0) xs ≠ .gt := by
  induction xs with
  | nil => simp
  | cons x xs ih =>
      rw [List.length_cons, List.replicate_succ, List.compare_cons_cons]
      cases hx : compare 0 x with
      | lt => simp
      | eq => exact ih
      | gt => exact absurd (Std.compare_eq_gt.mp hx) (by simp)

theorem compare_replicate_max (xs : List UInt8) :
    compare xs (List.replicate xs.length 255) ≠ .gt := by
  induction xs with
  | nil => simp
  | cons x xs ih =>
      rw [List.length_cons, List.replicate_succ, List.compare_cons_cons]
      cases hx : compare x 255 with
      | lt => simp
      | eq => exact ih
      | gt =>
          have hlt : (255 : UInt8) < x := Std.compare_eq_gt.mp hx
          exact absurd x.toNat_lt (Nat.not_lt.mpr (UInt8.lt_iff_toNat_lt.mp hlt))

/-- Bytes of which only the first ones are known are those and any others behind them. -/
theorem compare_known :
    compare rest (next ++ tail) = (compare (rest.take next.length) next).then
      (compare (rest.drop next.length) tail) := by
  rw [compare_take_drop (n := next.length), List.take_left, List.drop_left]

/-- Nothing is more than the bytes 255. -/
theorem eq_max_of_forall_le (h : ∀ tail : List UInt8, tail.length = xs.length → compare xs tail ≠ .lt) :
    ∀ x ∈ xs, x = 255 := by
  have hmax : compare xs (List.replicate xs.length 255) = .eq := by
    cases hc : compare xs (List.replicate xs.length 255) with
    | lt => exact absurd hc (h _ List.length_replicate)
    | eq => rfl
    | gt => exact absurd hc (compare_replicate_max xs)
  rw [Std.LawfulEqOrd.eq_of_compare hmax]
  exact fun x hx => List.eq_of_mem_replicate hx

theorem le_of_eq_max (h : ∀ x ∈ xs, x = 255) (hlen : ys.length = xs.length) :
    compare xs ys ≠ .lt := by
  rw [List.eq_replicate_of_mem h, ← hlen]
  intro hlt
  exact compare_replicate_max ys (Std.OrientedCmp.gt_of_lt hlt)

theorem not_gt_of_zeros (h : ZeroBytes xs) (hlen : ys.length = xs.length) :
    compare xs ys ≠ .gt := by
  rw [List.eq_replicate_of_mem h, ← hlen]
  exact compare_replicate_zero ys

/-- When the bytes that follow are those of the rest, or are not, whatever is not known of them. -/
theorem known_eq_iff (hlen : next.length ≤ rest.length) :
    (∀ tail, tail.length = rest.length - next.length →
        (compare rest (next ++ tail) = .eq ↔ ZeroBytes rest))
      ↔ if ZeroBytes rest then next = rest else next ≠ rest.take next.length := by
  split
  · rename_i hz
    constructor
    · intro h
      have hsame : ∀ c : UInt8, rest = next ++ List.replicate (rest.length - next.length) c :=
        fun c => Std.LawfulEqOrd.eq_of_compare ((h _ List.length_replicate).mpr hz)
      have hnone : rest.length - next.length = 0 := by
        by_contra hpos
        have hrep := List.append_cancel_left ((hsame 0).symm.trans (hsame 1))
        rw [List.replicate_inj] at hrep
        exact absurd (hrep.2.resolve_left hpos) (by decide)
      have hall := hsame 0
      rw [hnone, List.replicate_zero, List.append_nil] at hall
      exact hall.symm
    · rintro rfl tail htail
      rw [List.length_eq_zero_iff.mp (htail.trans (Nat.sub_self _)), List.append_nil]
      exact iff_of_true Std.ReflCmp.compare_self hz
  · rename_i hz
    constructor
    · intro h htake
      refine hz ((h (rest.drop next.length) List.length_drop).mp ?_)
      conv_lhs => rw [htake, List.length_take, Nat.min_eq_left hlen, List.take_append_drop]
      exact Std.ReflCmp.compare_self
    · refine fun hne tail _ => iff_of_false (fun heq => hne ?_) hz
      rw [Std.LawfulEqOrd.eq_of_compare heq, List.take_left]

/-- When the bytes that follow are less than the rest, unless that is all zeros. -/
theorem known_gt_iff (hlen : next.length ≤ rest.length) :
    (∀ tail, tail.length = rest.length - next.length →
        (compare rest (next ++ tail) = .gt ↔ ¬ ZeroBytes rest))
      ↔ ZeroBytes rest ∨ compare next (rest.take next.length) = .lt := by
  by_cases hz : ZeroBytes rest
  · refine iff_of_true (fun tail htail => ?_) (.inl hz)
    have hsame : (next ++ tail).length = rest.length := by
      rw [List.length_append, htail]
      omega
    exact iff_of_false (not_gt_of_zeros hz hsame) (fun h => h hz)
  · rw [or_iff_right hz]
    constructor
    · intro h
      have hself : compare (rest.drop next.length) (rest.drop next.length) = .eq :=
        Std.ReflCmp.compare_self
      have hgt := (h (rest.drop next.length) List.length_drop).mpr hz
      rw [compare_known, hself, Ordering.then_eq] at hgt
      exact Std.OrientedCmp.gt_iff_lt.mp hgt
    · intro hlt tail _
      rw [compare_known, Std.OrientedCmp.gt_of_lt hlt]
      exact iff_of_true rfl hz

/-- When the bytes that follow are not more than the rest. -/
theorem known_lt_iff :
    (∀ tail, tail.length = rest.length - next.length → compare rest (next ++ tail) ≠ .lt)
      ↔ compare next (rest.take next.length) = .lt
        ∨ next = rest.take next.length ∧ ∀ x ∈ rest.drop next.length, x = 255 := by
  rw [← List.length_drop]
  simp only [compare_known]
  constructor
  · intro h
    cases hc : compare (rest.take next.length) next with
    | lt =>
        refine absurd ?_ (h (rest.drop next.length) rfl)
        rw [hc, Ordering.lt_then]
    | gt => exact .inl (Std.OrientedCmp.gt_iff_lt.mp hc)
    | eq =>
        refine .inr ⟨(Std.LawfulEqOrd.eq_of_compare hc).symm, eq_max_of_forall_le fun tail htail => ?_⟩
        have hnot := h tail htail
        rwa [hc, Ordering.eq_then] at hnot
  · rintro (hlt | ⟨heq, hmax⟩) tail htail
    · rw [Std.OrientedCmp.gt_of_lt hlt]
      simp
    · have hself : compare next next = .eq := Std.ReflCmp.compare_self
      rw [← heq, hself, Ordering.eq_then]
      exact le_of_eq_max hmax htail

/-- Behind the end of a string there are zeros, and none before. -/
theorem compare_nil_eq {u : List UInt8} {n : Nat} (hu : ∀ x ∈ u, x ≠ 0) (hn : n ≠ 0) :
    compare u [] = if ZeroBytes (firstBytes (padded u) n) then .eq else .gt := by
  obtain ⟨m, rfl⟩ := Nat.exists_eq_succ_of_ne_zero hn
  cases u with
  | nil =>
      have hzero : ZeroBytes (firstBytes (padded []) (m + 1)) := by
        intro x hx
        obtain ⟨i, _, rfl⟩ := List.mem_map.mp hx
        exact padded_of_le (Nat.zero_le i)
      rw [if_pos hzero]
      rfl
  | cons c u =>
      have hnot : ¬ ZeroBytes (firstBytes (padded (c :: u)) (m + 1)) := by
        intro h
        refine hu c (by simp) (h c ?_)
        rw [firstBytes_succ, padded_cons_zero]
        exact List.mem_cons_self
      rw [if_neg hnot]
      rfl

theorem test_eq_test : op.test o = op.test o' ↔ match op with
    | .eq | .ne => (o = .eq ↔ o' = .eq)
    | .gt | .le => (o = .gt ↔ o' = .gt)
    | .lt | .ge => (o = .lt ↔ o' = .lt) := by
  cases op <;> cases o <;> cases o' <;> decide

/-- **What is known decides the comparison** of the rest of the left column with the bytes that
follow the right value, whatever those are that are not known. -/
theorem restDecided_iff (hlen : next.length ≤ rest.length) :
    (∀ tail, tail.length = rest.length - next.length →
        op.test (compare rest (next ++ tail))
          = op.test (if ZeroBytes rest then .eq else .gt))
      ↔ RestDecided op rest next := by
  have heq : (if ZeroBytes rest then Ordering.eq else .gt) = .eq ↔ ZeroBytes rest := by
    split
    · rename_i h; exact iff_of_true rfl h
    · rename_i h; exact iff_of_false (by simp) h
  have hgt : (if ZeroBytes rest then Ordering.eq else .gt) = .gt ↔ ¬ ZeroBytes rest := by
    split
    · rename_i h; exact iff_of_false (by simp) (not_not_intro h)
    · rename_i h; exact iff_of_true rfl h
  have hlt : (if ZeroBytes rest then Ordering.eq else .gt) ≠ .lt := by
    split <;> simp
  simp only [test_eq_test]
  cases op with
  | eq | ne =>
      simp only [heq]
      exact known_eq_iff hlen
  | gt | le =>
      simp only [hgt]
      exact known_gt_iff hlen
  | lt | ge =>
      simp only [iff_false_right hlt]
      exact known_lt_iff

end

/-! ## The whole way -/

/-- `get_col` finds a column of the table. -/
theorem getCol_of_mem (hkeys : (cols.map ColMeta.tabCol).Nodup) (hc : c ∈ cols) :
    getCol cols c.tabCol = .ok c := by
  unfold getCol
  cases hfind : cols.find? fun col => col.tabCol = c.tabCol with
  | none => exact absurd (List.find?_eq_none.mp hfind c hc) (by simp)
  | some col =>
      have hkey : col.tabCol = c.tabCol := by simpa using List.find?_some hfind
      obtain rfl := List.inj_on_of_nodup_map hkeys (List.mem_of_find?_eq_some hfind) hc hkey
      rfl

/-- `eval_cond` with column `l` on the left, and the bytes `q` of a value for column `r` on the
right. -/
theorem evalCond_eq {rhs : Operand} (hkeys : (cols.map ColMeta.tabCol).Nodup) (hl : l ∈ cols)
    (hrhs : rhsOf cols rec rhs = .ok (r.type, q)) (htype : l.type = r.type) :
    evalCond cols ⟨l.tabCol, op, rhs⟩ rec
      = .ok (op.test (ixCompare (l.field rec) q l.type l.len)) := by
  unfold evalCond
  rw [getCol_of_mem hkeys hl]
  dsimp only
  rw [hrhs]
  dsimp only
  rw [if_pos htype.symm, htype]

/-- Where a column of a condition is: in the scanned table or in those before, and the value it has
there. -/
structure Located (tabName : String) (cols : List ColMeta) (rec : RmRecord)
    (feedCols : List ColMeta) (feedRec : RmRecord) (c : ColMeta) (d : Datum) : Prop where
  fits : d.Fits c.type c.len
  isInt : IsInt32 c.len
  here : c.tabName = tabName → c ∈ cols ∧ Holds rec c d
    ∧ c.offset.toNat + c.len.toNat ≤ rec.size.toNat
  there : c.tabName ≠ tabName → c ∈ feedCols ∧ Holds feedRec c d

/-- What follows the bytes of the value on the right: the rest of the row, or of the heap behind the
buffer that `rec2dict` made. -/
def behindRight (heap : TabCol → Nat → UInt8) (tabName : String) (rec : RmRecord) (r : ColMeta) :
    Nat → UInt8 :=
  fun i => if r.tabName = tabName then r.field rec (r.len.toNat + i)
    else heap r.tabCol (r.len.toNat + i)

variable {heap : TabCol → Nat → UInt8} {feedCols : List ColMeta} {feedRec : RmRecord}
  {after : Nat → UInt8} {n : Nat}

/-! ## Other surroundings -/

theorem field_followedBy {i : Nat} (h : c.offset.toNat + i < rec.size.toNat) :
    c.field (rec.followedBy after) i = c.field rec i := if_pos h

/-- A row keeps its values wherever it is. -/
theorem Located.followedBy (h : Located t cols rec feedCols feedRec c v) :
    Located t cols (rec.followedBy after) feedCols feedRec c v := by
  refine ⟨h.fits, h.isInt, fun htab => ?_, h.there⟩
  obtain ⟨hmem, ⟨buf, val, raw, hrun, hraw, hfield⟩, hinside⟩ := h.here htab
  refine ⟨hmem, ⟨buf, val, raw, hrun, hraw, fun i hi => ?_⟩, hinside⟩
  rw [field_followedBy (by omega), hfield i hi]

theorem length_rowBehind : (rowBehind t rec r n).length ≤ n := by
  unfold rowBehind
  split
  · rw [length_firstBytes]
    exact Nat.min_le_left _ _
  · exact Nat.zero_le n

/-- The bytes of the row are among those that follow. -/
theorem behindRight_rowBehind {i : Nat} (hi : i < (rowBehind t rec r n).length) :
    behindRight heap t (rec.followedBy after) r i = (rowBehind t rec r n)[i] := by
  unfold rowBehind at hi ⊢
  split at hi
  · rename_i htab
    rw [length_firstBytes] at hi
    simp only [behindRight, htab, if_true, firstBytes, List.getElem_map, List.getElem_range]
    exact field_followedBy (by omega)
  · exact absurd hi (by simp)

/-- What follows the right value begins with the bytes of the row. -/
theorem firstBytes_behindRight : ∃ tail, tail.length = n - (rowBehind t rec r n).length
    ∧ firstBytes (behindRight heap t (rec.followedBy after) r) n = rowBehind t rec r n ++ tail := by
  have hlen : (rowBehind t rec r n).length ≤ n := length_rowBehind
  refine ⟨(firstBytes (behindRight heap t (rec.followedBy after) r) n).drop
    (rowBehind t rec r n).length, by simp, ?_⟩
  have htake : (firstBytes (behindRight heap t (rec.followedBy after) r) n).take
      (rowBehind t rec r n).length = rowBehind t rec r n := by
    refine List.ext_getElem (by simpa using hlen) fun i h1 h2 => ?_
    have hbyte : behindRight heap t (rec.followedBy after) r i = (rowBehind t rec r n)[i] :=
      behindRight_rowBehind h2
    rw [List.getElem_take, ← hbyte]
    simp [firstBytes]
  conv_lhs => rw [← List.take_append_drop (rowBehind t rec r n).length (firstBytes _ n), htake]

/-- And the other bytes can be any. -/
theorem exists_surroundings (tail : List UInt8)
    (htail : tail.length = n - (rowBehind t rec r n).length) :
    ∃ heap after, firstBytes (behindRight heap t (rec.followedBy after) r) n
      = rowBehind t rec r n ++ tail := by
  have hlen : (rowBehind t rec r n).length ≤ n := length_rowBehind
  let bytes := rowBehind t rec r n ++ tail
  refine ⟨fun _ i => bytes.getD (i - r.len.toNat) 0,
    fun i => bytes.getD (i - (r.offset.toNat + r.len.toNat)) 0,
    List.ext_getElem (by simp [htail]; omega) fun i h1 h2 => ?_⟩
  have hi : i < n := by simpa using h1
  by_cases hrow : i < (rowBehind t rec r n).length
  · rw [List.getElem_append_left hrow, ← behindRight_rowBehind hrow]
    simp only [firstBytes, List.getElem_map, List.getElem_range]
    rfl
  · -- behind the row, or in a buffer of its own
    have hget : ∀ k, k = i → bytes.getD k 0 = bytes[i] := by
      rintro k rfl
      rw [List.getD_eq_getElem?_getD, List.getElem?_eq_getElem h2, Option.getD_some]
    simp only [firstBytes, List.getElem_map, List.getElem_range]
    unfold behindRight
    split
    · rename_i htab
      have hend : ¬ r.offset.toNat + (r.len.toNat + i) < rec.size.toNat := by
        rw [rowBehind, if_pos htab, length_firstBytes] at hrow
        omega
      refine (if_neg hend).trans (hget _ (by omega))
    · exact hget _ (by omega)

/-- **What the outcome is right with, whatever memory holds.** -/
theorem decidedWith_all_iff (hv : v.Fits l.type l.len) :
    (∀ heap after, DecidedWith op l.len.toNat r.len.toNat
        (behindRight heap t (rec.followedBy after) r) v w)
      ↔ Decided op l.len.toNat r.len.toNat (rowBehind t rec r (l.len.toNat - r.len.toNat)) v w := by
  cases v with
  | int a => exact iff_of_true (fun _ _ => trivial) trivial
  | float a => exact iff_of_true (fun _ _ => trivial) trivial
  | str s =>
      cases w with
      | int b => exact iff_of_true (fun _ _ => trivial) trivial
      | float b => exact iff_of_true (fun _ _ => trivial) trivial
      | str u =>
          simp only [DecidedWith, Decided, forall_or_left]
          refine or_congr_right ?_
          by_cases hle : l.len.toNat ≤ r.len.toNat
          · simp only [if_pos hle]
            exact ⟨fun h => h (fun _ _ => 0) fun _ => 0, fun h _ _ => h⟩
          · simp only [if_neg hle]
            have hrest : ∀ x ∈ s.drop r.len.toNat, x ≠ 0 :=
              fun x hx => hv.2.2 x (List.mem_of_mem_drop hx)
            have hpos : l.len.toNat - r.len.toNat ≠ 0 := by omega
            rw [← restDecided_iff (by rw [length_firstBytes]; exact length_rowBehind),
              length_firstBytes, ← compare_nil_eq hrest hpos]
            simp only [memcmp_eq_compare]
            constructor
            · intro h tail htail
              obtain ⟨heap, after, hbytes⟩ := exists_surroundings tail htail
              rw [← hbytes]
              exact h heap after
            · intro h heap after
              obtain ⟨tail, htail, hbytes⟩ : ∃ tail, tail.length = _ ∧ firstBytes (behindRight heap t
                  (rec.followedBy after) r) (l.len.toNat - r.len.toNat) = _ ++ tail :=
                firstBytes_behindRight
              rw [hbytes]
              exact h tail htail

/-! ## The outcome -/

/-- With the scanned table's column on the left, its bytes are compared with those of the right
value, wherever these are. -/
theorem evaluate_compares (hkeys : (cols.map ColMeta.tabCol).Nodup)
    (hfkeys : (feedCols.map ColMeta.tabCol).Nodup) (hfeed : ∀ c ∈ feedCols, c.Sized)
    (hl : l ∈ cols) (hr : Located t cols rec feedCols feedRec r w) (htab : l.tabName = t)
    (htype : l.type = r.type) {cond : Condition}
    (hswap : swapSides t cond = .ok ⟨l.tabCol, op, .col r.tabCol⟩) :
    ∃ q, evaluate heap t cols rec feedCols feedRec cond
        = .ok (op.test (ixCompare (l.field rec) q l.type l.len))
      ∧ (∀ i, i < r.len.toNat → q i = w.bytes i)
      ∧ (fun i => q (r.len.toNat + i)) = behindRight heap t rec r := by
  obtain ⟨feedDict, hdict, _, hent⟩ := rec2dict_spec heap feedRec hfkeys hfeed
  have hrun : ∀ cond', feedCond t feedDict ⟨l.tabCol, op, .col r.tabCol⟩ = .ok cond' →
      evaluate heap t cols rec feedCols feedRec cond
        = if runtimeCond t cond' then evalCond cols cond' rec else .error .assertionFailure := by
    intro cond' hfed
    simp only [evaluate, hswap, hdict, hfed, bind, Except.bind]
    rfl
  by_cases hrtab : r.tabName = t
  · -- one table: `feed` leaves the condition as it is
    obtain ⟨hmem, hholds, _⟩ := hr.here hrtab
    refine ⟨r.field rec, ?_, hholds.bytes hr.fits hr.isInt, ?_⟩
    · have hcond : runtimeCond t ⟨l.tabCol, op, .col r.tabCol⟩ = true := by
        simp [runtimeCond, ColMeta.tabCol, htab, hrtab]
      rw [hrun _ (if_pos hrtab), if_pos hcond]
      exact evalCond_eq hkeys hl (by rw [rhsOf, getCol_of_mem hkeys hmem]) htype
    · funext i
      rw [behindRight, if_pos hrtab]
  · -- two tables: the other column's value, encoded again
    obtain ⟨hmem, hholds⟩ := hr.there hrtab
    obtain ⟨val, hval, hdatum, raw, hraw, henc⟩ := hent r hmem
    have hw : val.datum = w := by
      rw [hdatum, decode_bytes hr.fits (hholds.bytes hr.fits hr.isInt)]
    refine ⟨raw.data, ?_, fun i hi => ?_, ?_⟩
    · have hfed : feedCond t feedDict ⟨l.tabCol, op, .col r.tabCol⟩
          = .ok ⟨l.tabCol, op, .val val⟩ := by
        unfold feedCond
        dsimp only
        rw [if_neg (show ¬ r.tabCol.tabName = t from hrtab), hval]
      have hcond : runtimeCond t ⟨l.tabCol, op, .val val⟩ = true := by
        simp [runtimeCond, ColMeta.tabCol, htab]
      have htypew : val.datum.type = r.type := by
        rw [hw]
        exact hr.fits.type_eq
      rw [hrun _ hfed, if_pos hcond]
      exact evalCond_eq hkeys hl (by rw [rhsOf, hraw, htypew]) htype
    · rw [henc.inside i hi, hw]
    · funext i
      rw [behindRight, if_neg hrtab, henc.behind _ (by omega)]

/-- **What a condition on two columns evaluates to.** For every operator and every two columns of one
type, integers or strings, on one table or on two, the outcome is `a op b`, whatever memory holds
behind the row and behind the buffers of `rec2dict`, if and only if the columns and the values
decide it. They always do for integers, and for strings if the columns have the same length. -/
theorem condition_meaning_iff {a b : ColMeta} {va vb : Datum}
    (hkeys : (cols.map ColMeta.tabCol).Nodup) (hfkeys : (feedCols.map ColMeta.tabCol).Nodup)
    (hfeed : ∀ c ∈ feedCols, c.Sized) (ha : Located t cols rec feedCols feedRec a va)
    (hb : Located t cols rec feedCols feedRec b vb) (htab : a.tabName = t ∨ b.tabName = t)
    (htype : a.type = b.type) (hnum : a.type ≠ .typeFloat) :
    (∀ heap after, evaluate heap t cols (rec.followedBy after) feedCols feedRec
        ⟨a.tabCol, op, .col b.tabCol⟩ = .ok (op.test (va.compare vb)))
      ↔ if a.tabName = t then
          Decided op a.len.toNat b.len.toNat (rowBehind t rec b (a.len.toNat - b.len.toNat)) va vb
        else
          Decided op.swap b.len.toNat a.len.toNat (rowBehind t rec a (b.len.toNat - a.len.toNat)) vb va
    := by
  by_cases hat : a.tabName = t
  · have hswap : swapSides t ⟨a.tabCol, op, .col b.tabCol⟩ = .ok ⟨a.tabCol, op, .col b.tabCol⟩ :=
      if_pos (show a.tabCol.tabName = t from hat)
    rw [if_pos hat, ← decidedWith_all_iff ha.fits]
    refine forall₂_congr fun heap after => ?_
    obtain ⟨hmem, hholds, _⟩ := Located.here ha.followedBy hat
    obtain ⟨q, hrun, hq, hbehind⟩ :=
      evaluate_compares hkeys hfkeys hfeed hmem hb.followedBy hat htype hswap
    rw [← hbehind, ← ixCompare_decides ha.fits hb.fits htype hnum
      (hholds.bytes ha.fits ha.isInt) hq, hrun, Except.ok.injEq]
  · -- the scan turns the condition round
    have hbt : b.tabName = t := htab.resolve_left hat
    have hswap : swapSides t ⟨a.tabCol, op, .col b.tabCol⟩
        = .ok ⟨b.tabCol, op.swap, .col a.tabCol⟩ :=
      (if_neg (show ¬ a.tabCol.tabName = t from hat)).trans (if_pos (show b.tabCol.tabName = t from hbt))
    rw [if_neg hat, ← decidedWith_all_iff hb.fits]
    refine forall₂_congr fun heap after => ?_
    obtain ⟨hmem, hholds, _⟩ := Located.here hb.followedBy hbt
    obtain ⟨q, hrun, hq, hbehind⟩ :=
      evaluate_compares hkeys hfkeys hfeed hmem ha.followedBy hbt htype.symm hswap
    rw [← hbehind, ← ixCompare_decides hb.fits ha.fits htype.symm (htype ▸ hnum)
      (hholds.bytes hb.fits hb.isInt) hq, hrun, Except.ok.injEq, ← Datum.compare_swap va vb, swap_test]

/-- A column of the scanned table, and a wider one of the table before. -/
def narrow : ColMeta := ⟨"t", "c", .typeString, 2, 0, false⟩

def wide : ColMeta := ⟨"s", "d", .typeString, 3, 0, false⟩

/-- A `CHAR(2)` column and a `CHAR(4)` column of one table. -/
def twoLengths : List ColMeta :=
  [⟨"t", "a", .typeString, 2, 0, false⟩, ⟨"t", "b", .typeString, 4, 2, false⟩]

/-- A row with `ab` and `abcd`. -/
def abAbcd : RmRecord := ⟨6, memcpy (memcpy (fun _ => 0) 0 (padded [97, 98]) 2) 2 (padded [97, 98, 99, 100]) 4⟩

/-- A value of another table is compared as far as the scanned table's column goes. In one table the
longer column on the left meets its own first characters behind the shorter one. -/
theorem condition_meaning_iff_wider :
    (∀ heap after, evaluate heap "t" [narrow] (RmRecord.followedBy ⟨2, padded [97, 98]⟩ after) [wide]
        ⟨3, padded [97, 98]⟩ ⟨⟨"s", "d"⟩, .eq, .col ⟨"t", "c"⟩⟩
      = .ok (CompOp.eq.test (Datum.compare (.str [97, 98]) (.str [97, 98]))))
    ∧ ∀ heap after, evaluate heap "t" twoLengths (abAbcd.followedBy after) [] abAbcd
        ⟨⟨"t", "b"⟩, .gt, .col ⟨"t", "a"⟩⟩
      = .ok (CompOp.gt.test (Datum.compare (.str [97, 98, 99, 100]) (.str [97, 98]))) := by
  constructor
  · have hwide : Located "t" [narrow] ⟨2, padded [97, 98]⟩ [wide] ⟨3, padded [97, 98]⟩ wide
        (.str [97, 98]) := by
      refine ⟨⟨rfl, by decide, by simp⟩, by decide, fun h => absurd h (by decide), fun _ => ?_⟩
      exact ⟨by simp, fun _ => 0, _, _, rfl, rfl, by decide⟩
    have hnarrow : Located "t" [narrow] ⟨2, padded [97, 98]⟩ [wide] ⟨3, padded [97, 98]⟩ narrow
        (.str [97, 98]) := by
      refine ⟨⟨rfl, by decide, by simp⟩, by decide, fun _ => ?_, fun h => absurd rfl h⟩
      exact ⟨by simp, ⟨fun _ => 0, _, _, rfl, rfl, by decide⟩, by decide⟩
    refine (condition_meaning_iff (by decide) (by decide) ?_ hwide hnarrow (.inr rfl) rfl
      (by decide)).mpr (.inr (.inl (by decide)))
    intro c hc
    obtain rfl := List.mem_singleton.mp hc
    exact ⟨by decide, by decide, fun h => absurd rfl h⟩
  · have hshort : Located "t" twoLengths abAbcd [] abAbcd ⟨"t", "a", .typeString, 2, 0, false⟩
        (.str [97, 98]) := by
      refine ⟨⟨rfl, by decide, by simp⟩, by decide, fun _ => ?_, fun h => absurd rfl h⟩
      exact ⟨by simp [twoLengths], ⟨fun _ => 0, _, _, rfl, rfl, by decide⟩, by decide⟩
    have hlong : Located "t" twoLengths abAbcd [] abAbcd ⟨"t", "b", .typeString, 4, 2, false⟩
        (.str [97, 98, 99, 100]) := by
      refine ⟨⟨rfl, by decide, by simp⟩, by decide, fun _ => ?_, fun h => absurd rfl h⟩
      exact ⟨by simp [twoLengths], ⟨fun _ => 0, _, _, rfl, rfl, by decide⟩, by decide⟩
    exact (condition_meaning_iff (by decide) (by decide) (by simp) hlong hshort (.inl rfl) rfl
      (by decide)).mpr (.inr (.inr (by decide)))

/-- **`a = b` holds of different strings**, and turned round it does not. -/
theorem different_strings_equal :
    evaluate (fun _ _ => 0) "t" twoLengths abAbcd [] abAbcd ⟨⟨"t", "a"⟩, .eq, .col ⟨"t", "b"⟩⟩
        = .ok true
      ∧ evaluate (fun _ _ => 0) "t" twoLengths abAbcd [] abAbcd ⟨⟨"t", "b"⟩, .eq, .col ⟨"t", "a"⟩⟩
        = .ok false
      ∧ CompOp.eq.test (Datum.compare (.str [97, 98]) (.str [97, 98, 99, 100])) = false := by
  refine ⟨rfl, rfl, rfl⟩

end Rucbase
