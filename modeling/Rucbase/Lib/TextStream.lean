import Mathlib.Tactic.Common

/-!
# Text streams

Formatted input and output as the C++ library has it, in the classic locale: `<<` writes numbers in
decimal, `>>` skips the white space in front of what it reads and stops at the first character that
does not belong to it. Once a read has failed, the later ones do nothing.
-/

namespace Rucbase.Lib

/-- `std::istream`: what is left of the text, and the fail bit. -/
structure IStream where
  text : List Char
  fail : Bool
deriving DecidableEq, Repr

abbrev Reader := StateM IStream

/-- `isspace`. -/
def isSpace (c : Char) : Bool := c = ' ' || (9 ≤ c.toNat && c.toNat ≤ 13)

/-! ## Writing -/

/-- `os << n`, for an unsigned number. -/
def putNat (n : Nat) : List Char := Nat.toDigits 10 n

/-- `os << v`, for an `int`. -/
def putInt (v : Int) : List Char := if v < 0 then '-' :: putNat v.natAbs else putNat v.natAbs

/-- `os << b`. -/
def putBool (b : Bool) : List Char := putNat b.toNat

/-! ## Reading -/

/-- `is >> s`. -/
def readWord (s : String) : Reader String := fun is =>
  if is.fail then (s, is)
  else
    match is.text.dropWhile isSpace with
    | [] => (s, ⟨[], true⟩)
    | c :: text =>
        (String.ofList ((c :: text).takeWhile fun c => !isSpace c),
          ⟨(c :: text).dropWhile fun c => !isSpace c, false⟩)

def takeSign : List Char → Bool × List Char
  | '-' :: text => (true, text)
  | '+' :: text => (false, text)
  | text => (false, text)

/-- The number in front of a text, as its sign and its digits; none, if it has no digit. -/
def number (text : List Char) : Option (Bool × Nat) :=
  match (takeSign text).2.takeWhile Char.isDigit with
  | [] => none
  | digits => some ((takeSign text).1, Nat.ofDigitChars 10 digits 0)

def afterNumber (text : List Char) : List Char := (takeSign text).2.dropWhile Char.isDigit

/-- `is >> a`, for a type whose values are read as numbers. `convert` says which value a number is,
and whether the read has failed. -/
def readNumber {α : Type} (convert : Option (Bool × Nat) → α × Bool) (a : α) : Reader α := fun is =>
  if is.fail then (a, is)
  else
    match is.text.dropWhile isSpace with
    | [] => (a, ⟨[], true⟩)
    | c :: text => ((convert (number (c :: text))).1,
        ⟨afterNumber (c :: text), (convert (number (c :: text))).2⟩)

/-- An `int`. A number that is out of range is read as the nearest `int`. -/
def toInt32 : Option (Bool × Nat) → Int × Bool
  | none => (0, true)
  | some (negative, n) =>
      let v : Int := if negative then -n else n
      if v < -2147483648 then (-2147483648, true)
      else if 2147483648 ≤ v then (2147483647, true)
      else (v, false)

/-- A `size_t`. A negative number wraps around. -/
def toSize : Option (Bool × Nat) → Nat × Bool
  | none => (0, true)
  | some (negative, n) =>
      if 18446744073709551616 ≤ n then (18446744073709551615, true)
      else (if negative then (18446744073709551616 - n) % 18446744073709551616 else n, false)

/-- A `bool`: the numbers 0 and 1. -/
def toBool : Option (Bool × Nat) → Bool × Bool
  | none => (false, true)
  | some (_, 0) => (false, false)
  | some (negative, n) => (true, negative || n != 1)

def readInt (v : Int) : Reader Int := readNumber toInt32 v

def readSize (n : Nat) : Reader Nat := readNumber toSize n

def readBool (b : Bool) : Reader Bool := readNumber toBool b

/-- `for (size_t i = 0; i < n; i++)`, around a reader. -/
def times {α β : Type} (item : Reader β) (f : α → β → α) : Nat → α → Reader α
  | 0, a => pure a
  | n + 1, a => do
      let b ← item
      times item f n (f a b)

/-! ## Reading back -/

variable {α β : Type} {r : Reader α} {written left gap rest : List Char} {a : α}

/-- White space only. -/
def Blank (gap : List Char) : Prop := ∀ c ∈ gap, isSpace c = true

/-- Nothing, or a white space first. -/
def Delimited (rest : List Char) : Prop := ∀ c ∈ rest.head?, isSpace c = true

/-- After white space, the reader finds `a` where `written` is, and leaves `left` of it. -/
def ReadsBack (r : Reader α) (written left : List Char) (a : α) : Prop :=
  ∀ gap rest, Blank gap → Delimited (left ++ rest) →
    r.run ⟨gap ++ (written ++ rest), false⟩ = (a, ⟨left ++ rest, false⟩)

theorem Blank.append (h : Blank gap) (h' : Blank left) : Blank (gap ++ left) :=
  fun c hc => (List.mem_append.mp hc).elim (h c) (h' c)

theorem Blank.delimited (h : Blank gap) (hne : gap ≠ []) : Delimited (gap ++ rest) := by
  cases gap with
  | nil => exact absurd rfl hne
  | cons c gap =>
      intro d hd
      obtain rfl : c = d := by simpa using hd
      exact h c (by simp)

theorem dropWhile_blank (h : Blank gap) (hrest : ∀ c ∈ rest.head?, isSpace c = false) :
    (gap ++ rest).dropWhile isSpace = rest := by
  rw [List.dropWhile_append_of_pos h]
  cases rest with
  | nil => rfl
  | cons c rest => rw [List.dropWhile_cons_of_neg (by simpa using hrest c rfl)]

/-- What `takeWhile` and `dropWhile` make of a text whose first part passes and whose rest does not
begin with what passes. -/
theorem span_append {p : Char → Bool} (h : ∀ c ∈ written, p c = true)
    (hrest : ∀ c ∈ rest.head?, p c = false) :
    (written ++ rest).takeWhile p = written ∧ (written ++ rest).dropWhile p = rest := by
  rw [List.takeWhile_append_of_pos h, List.dropWhile_append_of_pos h]
  cases rest with
  | nil => exact ⟨List.append_nil _, rfl⟩
  | cons c rest =>
      have hc : ¬ p c = true := by simpa using hrest c rfl
      rw [List.takeWhile_cons_of_neg hc, List.dropWhile_cons_of_neg hc]
      exact ⟨List.append_nil _, rfl⟩

/-- A text that is no white space, as the streams print them. -/
def Solid (written : List Char) : Prop := written ≠ [] ∧ ∀ c ∈ written, isSpace c = false

theorem Solid.dropWhile (h : Solid written) (hgap : Blank gap) :
    (gap ++ (written ++ rest)).dropWhile isSpace = written ++ rest := by
  refine dropWhile_blank hgap fun c hc => ?_
  obtain ⟨d, text, rfl⟩ := List.exists_cons_of_ne_nil h.1
  obtain rfl : d = c := by simpa using hc
  exact h.2 d (by simp)

/-- A word is read back. -/
theorem reads_word {s : String} (s' : String) (h : Solid s.toList) :
    ReadsBack (readWord s') s.toList [] s := by
  intro gap rest hgap hrest
  obtain ⟨d, text, htext⟩ := List.exists_cons_of_ne_nil h.1
  have hspan : (s.toList ++ rest).takeWhile (fun c => !isSpace c) = s.toList
      ∧ (s.toList ++ rest).dropWhile (fun c => !isSpace c) = rest :=
    span_append (fun c hc => by simp [h.2 c hc]) fun c hc => by simp [hrest c hc]
  unfold readWord StateT.run
  dsimp only
  rw [if_neg (by simp), h.dropWhile hgap]
  rw [htext, List.cons_append] at hspan ⊢
  dsimp only
  rw [hspan.1, hspan.2, ← htext, String.ofList_toList]
  rfl

/-! ## Numbers -/

variable {n : Nat} {v : Int} {b : Bool} {negative : Bool}

theorem isSpace_of_isDigit {c : Char} (h : c.isDigit = true) : isSpace c = false := by
  have h48 : 48 ≤ c.toNat := (Char.isDigit_iff_toNat.mp h).1
  have hne : c ≠ ' ' := by
    rintro rfl
    exact absurd h (by decide)
  unfold isSpace
  simp [hne]
  omega

theorem not_isDigit_of_isSpace {c : Char} (h : isSpace c = true) : c.isDigit = false := by
  by_contra hno
  rw [isSpace_of_isDigit (by simpa using hno)] at h
  exact absurd h (by simp)

theorem isDigit_putNat (n : Nat) : ∀ c ∈ putNat n, c.isDigit = true :=
  fun _ hc => Nat.isDigit_of_mem_toDigits (by omega) (by omega) hc

theorem solid_putNat (n : Nat) : Solid (putNat n) :=
  ⟨Nat.toDigits_ne_nil, fun c hc => isSpace_of_isDigit (isDigit_putNat n c hc)⟩

theorem takeSign_putNat : takeSign (putNat n ++ rest) = (false, putNat n ++ rest) := by
  obtain ⟨c, text, hc⟩ := List.exists_cons_of_ne_nil (solid_putNat n).1
  have hdigit : c.isDigit = true := isDigit_putNat n c (by rw [hc]; simp)
  rw [hc, List.cons_append]
  unfold takeSign
  split
  · next heq =>
      obtain rfl := (List.cons.inj heq).1
      exact absurd hdigit (by decide)
  · next heq =>
      obtain rfl := (List.cons.inj heq).1
      exact absurd hdigit (by decide)
  · rfl

/-- A sign and digits, with no digit behind them, are taken as a whole. -/
theorem number_putNat {text : List Char} (h : takeSign text = (negative, putNat n ++ rest))
    (hrest : Delimited rest) : number text = some (negative, n) ∧ afterNumber text = rest := by
  have hspan := span_append (isDigit_putNat n) fun c hc => not_isDigit_of_isSpace (hrest c hc)
  obtain ⟨d, digits, hd⟩ := List.exists_cons_of_ne_nil (solid_putNat n).1
  have hvalue : Nat.ofDigitChars 10 (d :: digits) 0 = n := by
    rw [← hd]
    exact Nat.ofDigitChars_ten_toDigits
  unfold number afterNumber
  rw [h]
  dsimp only
  rw [hspan.1, hspan.2, hd]
  dsimp only
  rw [hvalue]
  exact ⟨rfl, rfl⟩

theorem reads_number {convert : Option (Bool × Nat) → α × Bool} (a' : α) (h : Solid written)
    (hsign : ∀ rest, takeSign (written ++ rest) = (negative, putNat n ++ rest))
    (ha : convert (some (negative, n)) = (a, false)) :
    ReadsBack (readNumber convert a') written [] a := by
  intro gap rest hgap hrest
  obtain ⟨hnumber, hafter⟩ := number_putNat (hsign rest) hrest
  unfold readNumber StateT.run
  dsimp only
  rw [if_neg (by simp), h.dropWhile hgap]
  obtain ⟨c, text, rfl⟩ := List.exists_cons_of_ne_nil h.1
  rw [List.cons_append] at hnumber hafter ⊢
  dsimp only
  rw [hnumber, hafter, ha]
  rfl

theorem reads_size (n' : Nat) (h : n < 18446744073709551616) :
    ReadsBack (readSize n') (putNat n) [] n := by
  refine reads_number n' (solid_putNat n) (fun rest => takeSign_putNat) ?_
  unfold toSize
  dsimp only
  rw [if_neg (by omega)]
  rfl

theorem reads_bool (b' : Bool) : ReadsBack (readBool b') (putBool b) [] b := by
  refine reads_number b' (solid_putNat _) (fun rest => takeSign_putNat) ?_
  cases b <;> rfl

theorem reads_int (v' : Int) (h : -2147483648 ≤ v ∧ v < 2147483648) :
    ReadsBack (readInt v') (putInt v) [] v := by
  unfold putInt
  split
  · next hneg =>
      have hsolid : Solid ('-' :: putNat v.natAbs) := by
        refine ⟨by simp, fun c hc => ?_⟩
        rcases List.mem_cons.mp hc with rfl | hc
        · decide
        · exact (solid_putNat _).2 c hc
      refine reads_number v' hsolid (fun rest => rfl) ?_
      unfold toInt32
      have habs : -(v.natAbs : Int) = v := by omega
      simp only [if_true, habs]
      rw [if_neg (by omega), if_neg (by omega)]
  · next hnonneg =>
      refine reads_number v' (solid_putNat _) (fun rest => takeSign_putNat) ?_
      unfold toInt32
      have habs : (v.natAbs : Int) = v := by omega
      simp only [Bool.false_eq_true, if_false, habs]
      rw [if_neg (by omega), if_neg (by omega)]

/-! ## One after the other -/

theorem run_bind_eq {f : α → Reader β} {is is' : IStream} (h : r.run is = (a, is')) :
    (r >>= f).run is = (f a).run is' := by
  rw [StateT.run_bind, h]
  rfl

/-- A reader, and after it another that is told what the first has read. -/
theorem ReadsBack.bind {f : α → Reader β} {written' sep : List Char} {b : β}
    (h : ReadsBack r written [] a) (hsep : Blank sep) (hne : sep ≠ [])
    (h' : ReadsBack (f a) written' left b) : ReadsBack (r >>= f) (written ++ (sep ++ written')) left b := by
  intro gap rest hgap hrest
  have hfirst := h gap (sep ++ (written' ++ rest)) hgap (hsep.delimited hne)
  rw [List.append_assoc, List.append_assoc, run_bind_eq hfirst]
  exact h' sep rest hsep hrest

theorem ReadsBack.map (f : α → β) (h : ReadsBack r written left a) :
    ReadsBack (do let a ← r; return f a) written left (f a) := by
  intro gap rest hgap hrest
  rw [run_bind_eq (h gap rest hgap hrest)]
  rfl

/-- A loop that reads as many items as there are: each is written with white space behind it, of
which the reader of an item takes none, and nothing is read of what follows the last one. -/
theorem times_reads {item : Reader β} {f : α → β → α} {write : β → List Char} {sep : List Char}
    {bs : List β} (hitem : ∀ b ∈ bs, ReadsBack item (write b) left b) (hgap : Blank gap)
    (hsep : Blank (left ++ sep)) (hne : left ++ sep ≠ []) (rest : List Char) :
    (times item f bs.length a).run
        ⟨gap ++ ((bs.flatMap fun b => write b ++ sep) ++ rest), false⟩
      = (bs.foldl f a, ⟨(if bs = [] then gap else left ++ sep) ++ rest, false⟩) := by
  induction bs generalizing a gap with
  | nil => rfl
  | cons b bs ih =>
      let text := (bs.flatMap fun b => write b ++ sep) ++ rest
      have hsplit : gap ++ (((b :: bs).flatMap fun b => write b ++ sep) ++ rest)
          = gap ++ (write b ++ (sep ++ text)) := by
        simp [text]
      have hb := hitem b (by simp) gap (sep ++ text) hgap (by
        rw [← List.append_assoc]
        exact hsep.delimited hne)
      have hrest := ih (fun b hb => hitem b (List.mem_cons_of_mem _ hb)) hsep (a := f a b)
      rw [hsplit, List.length_cons, times, run_bind_eq hb, ← List.append_assoc, hrest]
      by_cases hbs : bs = [] <;> simp [hbs]

/-- A number of items, and as many items. -/
theorem reads_counted {γ : Type} {item : Reader β} {write : β → List Char} {sep : List Char}
    {bs : List β} (n' : Nat) (f : α → β → α) (a : α) (g : α → γ)
    (hsize : bs.length < 18446744073709551616) (hitem : ∀ b ∈ bs, ReadsBack item (write b) left b)
    (hgap : Blank gap) (hgap' : gap ≠ []) (hsep : Blank (left ++ sep)) (hsep' : left ++ sep ≠ []) :
    ReadsBack (do let n ← readSize n'; let a ← times item f n a; return g a)
      (putNat bs.length ++ (gap ++ bs.flatMap fun b => write b ++ sep))
      (if bs = [] then gap else left ++ sep) (g (bs.foldl f a)) := by
  intro gap₀ rest hgap₀ _
  have hn := reads_size n' hsize gap₀ (gap ++ ((bs.flatMap fun b => write b ++ sep) ++ rest)) hgap₀
    (hgap.delimited hgap')
  have hitems := times_reads (f := f) (a := a) hitem hgap hsep hsep' rest
  rw [List.append_assoc, List.append_assoc, run_bind_eq hn, List.nil_append, run_bind_eq hitems]
  rfl

end Rucbase.Lib
