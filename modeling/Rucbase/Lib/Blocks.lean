import Mathlib.Order.Defs.LinearOrder
import Mathlib.Order.Lattice
import Mathlib.Data.List.Chain

/-!
# Sorted entries in separated blocks

A sorted list of entries cut into blocks, each with a label: every block but the first has its
keys at or above its label, and all earlier keys are below it. The label of the first block
says nothing. Cutting a block, moving an entry to a neighbour and joining two blocks keep this,
and keep the entries.
-/

namespace Rucbase.Lib

variable {κ β : Type} [LinearOrder κ]

/-- Strictly increasing keys. -/
def Increasing (l : List (κ × β)) : Prop := l.Pairwise fun a b => a.1 < b.1

/-- Block `b` comes before block `b'`. -/
def Before (b b' : κ × List (κ × β)) : Prop :=
  (∀ e ∈ b.2, e.1 < b'.1) ∧ ∀ e ∈ b'.2, b'.1 ≤ e.1

structure Separated (bs : List (κ × List (κ × β))) : Prop where
  apart : bs.Pairwise Before
  sorted : ∀ b ∈ bs, Increasing b.2

/-- All entries, in order. -/
def entriesOf (bs : List (κ × List (κ × β))) : List (κ × β) := bs.flatMap Prod.snd

/-- `bs'` has the entries of `bs`, and is as well separated. -/
structure Keeps (bs bs' : List (κ × List (κ × β))) : Prop where
  same : entriesOf bs' = entriesOf bs
  separated : Separated bs → Separated bs'

variable {A B bs bs' bs'' W W' : List (κ × List (κ × β))} {k k' : κ} {l l' l₁ l₂ : List (κ × β)}
  {e : κ × β}

theorem Keeps.refl : Keeps bs bs := ⟨rfl, id⟩

theorem Keeps.trans (h : Keeps bs bs') (h' : Keeps bs' bs'') : Keeps bs bs'' :=
  ⟨h'.same.trans h.same, h'.separated ∘ h.separated⟩

omit [LinearOrder κ] in
theorem entriesOf_append : entriesOf (A ++ B) = entriesOf A ++ entriesOf B := List.flatMap_append

omit [LinearOrder κ] in
theorem mem_entriesOf : e ∈ entriesOf bs ↔ ∃ b ∈ bs, e ∈ b.2 := List.mem_flatMap

namespace Separated

theorem append_iff : Separated (A ++ B) ↔
    Separated A ∧ Separated B ∧ ∀ a ∈ A, ∀ b ∈ B, Before a b := by
  constructor
  · rintro ⟨hap, hso⟩
    rw [List.pairwise_append] at hap
    exact ⟨⟨hap.1, fun b hb => hso b (List.mem_append_left _ hb)⟩,
      ⟨hap.2.1, fun b hb => hso b (List.mem_append_right _ hb)⟩, hap.2.2⟩
  · rintro ⟨⟨ha, ha'⟩, ⟨hb, hb'⟩, hab⟩
    refine ⟨List.pairwise_append.mpr ⟨ha, hb, hab⟩, fun b hmem => ?_⟩
    exact (List.mem_append.mp hmem).elim (ha' b) (hb' b)

theorem pair_iff : Separated [(k, l), (k', l')] ↔
    Increasing l ∧ Increasing l' ∧ Before (k, l) (k', l') := by
  constructor
  · rintro ⟨hap, hso⟩
    rw [List.pairwise_pair] at hap
    exact ⟨hso (k, l) (by simp), hso (k', l') (by simp), hap⟩
  · rintro ⟨hl, hl', hb⟩
    refine ⟨List.pairwise_pair.mpr hb, fun b hmem => ?_⟩
    rcases List.mem_cons.mp hmem with rfl | hmem
    · exact hl
    · rw [List.mem_singleton.mp hmem]
      exact hl'

theorem singleton_iff : Separated [(k, l)] ↔ Increasing l := by
  constructor
  · exact fun h => h.sorted (k, l) (by simp)
  · intro hl
    refine ⟨List.pairwise_singleton .., fun b hmem => ?_⟩
    rw [List.mem_singleton.mp hmem]
    exact hl

/-- **Replacing a window** by one with the same keys. The new labels have to be above what is to
the left and not above their own keys, if there is anything to the left. -/
theorem window (hs : Separated (A ++ W ++ B)) (hW : W ≠ []) (hW' : Separated W')
    (hkeys : ∀ e ∈ entriesOf W', e ∈ entriesOf W)
    (hlow : ∀ a ∈ A, ∀ w ∈ W', Before a w) : Separated (A ++ W' ++ B) := by
  rw [append_iff, append_iff] at hs ⊢
  obtain ⟨⟨hA, _, hAW⟩, hB, hAB⟩ := hs
  refine ⟨⟨hA, hW', hlow⟩, hB, fun a ha b hb => ?_⟩
  rcases List.mem_append.mp ha with ha | ha
  · exact hAB a (List.mem_append_left _ ha) b hb
  · obtain ⟨w, hw⟩ := List.exists_mem_of_ne_nil W hW
    refine ⟨fun e he => ?_, (hAB w (List.mem_append_right _ hw) b hb).2⟩
    obtain ⟨v, hv, hev⟩ := mem_entriesOf.mp (hkeys e (mem_entriesOf.mpr ⟨a, ha, he⟩))
    exact (hAB v (List.mem_append_right _ hv) b hb).1 e hev

end Separated

theorem Increasing.append_iff : Increasing (l₁ ++ l₂) ↔
    Increasing l₁ ∧ Increasing l₂ ∧ ∀ a ∈ l₁, ∀ b ∈ l₂, a.1 < b.1 := List.pairwise_append

theorem Increasing.head_le (h : Increasing (e :: l)) : ∀ f ∈ e :: l, e.1 ≤ f.1 := by
  intro f hf
  rcases List.mem_cons.mp hf with rfl | hf
  · exact le_refl _
  · exact le_of_lt ((List.pairwise_cons.mp h).1 f hf)

/-- The entries of separated blocks increase throughout. -/
theorem Separated.increasing (h : Separated bs) : Increasing (entriesOf bs) := by
  induction bs with
  | nil => exact List.Pairwise.nil
  | cons b bs ih =>
      obtain ⟨hb, hbs, hall⟩ := Separated.append_iff.mp (show Separated ([b] ++ bs) from h)
      rw [show entriesOf (b :: bs) = b.2 ++ entriesOf bs from rfl, Increasing.append_iff]
      refine ⟨hb.sorted b (by simp), ih hbs, fun x hx y hy => ?_⟩
      obtain ⟨b', hb', hy'⟩ := mem_entriesOf.mp hy
      obtain ⟨h1, h2⟩ := hall b (by simp) b' hb'
      exact lt_of_lt_of_le (h1 x hx) (h2 y hy')

/-! ## Moves -/

/-- Cutting a block; the new one is labelled with its first key. -/
theorem Keeps.cut : Keeps (A ++ [(k, l ++ e :: l')] ++ B) (A ++ [(k, l), (e.1, e :: l')] ++ B) := by
  refine ⟨by simp [entriesOf], fun hs => ?_⟩
  obtain ⟨⟨_, hmid, hA⟩, _⟩ := by
    rw [Separated.append_iff, Separated.append_iff] at hs
    exact hs
  obtain ⟨hl, hl', hcross⟩ := Increasing.append_iff.mp (Separated.singleton_iff.mp hmid)
  refine hs.window (by simp) ?_ ?_ ?_
  · rw [Separated.pair_iff]
    exact ⟨hl, hl', fun f hf => hcross f hf e (by simp), hl'.head_le⟩
  · simp [entriesOf]
  · intro a ha w hw
    obtain ⟨h1, h2⟩ := hA a ha _ (List.mem_singleton_self _)
    rcases List.mem_cons.mp hw with rfl | hw
    · exact ⟨h1, fun f hf => h2 f (List.mem_append_left _ hf)⟩
    · rw [List.mem_singleton.mp hw]
      refine ⟨fun f hf => ?_, hl'.head_le⟩
      exact lt_of_lt_of_le (h1 f hf) (h2 e (by simp))

/-- The label of the first block says nothing. -/
theorem Keeps.relabel : Keeps ((k, l) :: B) ((k', l) :: B) := by
  refine ⟨rfl, fun hs => ?_⟩
  obtain ⟨hl, hB, hlB⟩ := Separated.append_iff.mp (show Separated ([(k, l)] ++ B) from hs)
  show Separated ([(k', l)] ++ B)
  rw [Separated.append_iff]
  refine ⟨?_, hB, fun a ha b hb => ?_⟩
  · exact Separated.singleton_iff.mpr (Separated.singleton_iff.mp hl)
  · rw [List.mem_singleton.mp ha]
    exact hlB (k, l) (List.mem_singleton_self _) b hb

/-- Joining two blocks. -/
theorem Keeps.join (hne : l ≠ []) :
    Keeps (A ++ [(k, l), (k', l')] ++ B) (A ++ [(k, l ++ l')] ++ B) := by
  refine ⟨by simp [entriesOf], fun hs => ?_⟩
  obtain ⟨⟨_, hmid, hA⟩, _⟩ := by
    rw [Separated.append_iff, Separated.append_iff] at hs
    exact hs
  obtain ⟨hl, hl', h1, h2⟩ := Separated.pair_iff.mp hmid
  have hcross : ∀ a ∈ l, ∀ b ∈ l', a.1 < b.1 := fun a ha b hb => lt_of_lt_of_le (h1 a ha) (h2 b hb)
  refine hs.window (by simp) ?_ (by simp [entriesOf]) ?_
  · exact Separated.singleton_iff.mpr (Increasing.append_iff.mpr ⟨hl, hl', hcross⟩)
  · intro a ha w hw
    rw [List.mem_singleton.mp hw]
    obtain ⟨h3, h4⟩ := hA a ha (k, l) (by simp)
    refine ⟨h3, fun f hf => ?_⟩
    rcases List.mem_append.mp hf with hf | hf
    · exact h4 f hf
    · obtain ⟨g, hg⟩ := List.exists_mem_of_ne_nil l hne
      exact (h4 g hg).trans (le_of_lt (hcross g hg f hf))

/-- Moving the last entry of a block to the next: join, then cut. -/
theorem Keeps.shiftRight : Keeps (A ++ [(k, l ++ [e]), (k', l')] ++ B)
    (A ++ [(k, l), (e.1, e :: l')] ++ B) := by
  have hcut : Keeps (A ++ [(k, l ++ [e] ++ l')] ++ B) (A ++ [(k, l), (e.1, e :: l')] ++ B) := by
    rw [List.append_assoc l]
    exact Keeps.cut
  exact (Keeps.join (by simp)).trans hcut

/-- Moving the first entry of a block to the one before. -/
theorem Keeps.shiftLeft {f : κ × β} (hne : l ≠ []) :
    Keeps (A ++ [(k, l), (k', e :: f :: l')] ++ B) (A ++ [(k, l ++ [e]), (f.1, f :: l')] ++ B) := by
  refine (Keeps.join hne).trans ?_
  rw [show l ++ e :: f :: l' = (l ++ [e]) ++ f :: l' by simp]
  exact Keeps.cut

/-! ## One entry more or less -/

theorem Increasing.insert (h : Increasing (l₁ ++ l₂)) (h₁ : ∀ f ∈ l₁, f.1 < e.1)
    (h₂ : ∀ f ∈ l₂, e.1 < f.1) : Increasing (l₁ ++ e :: l₂) := by
  obtain ⟨hl, hl', hcross⟩ := Increasing.append_iff.mp h
  refine Increasing.append_iff.mpr ⟨hl, List.pairwise_cons.mpr ⟨h₂, hl'⟩, fun a ha b hb => ?_⟩
  rcases List.mem_cons.mp hb with rfl | hb
  · exact h₁ a ha
  · exact hcross a ha b hb

/-- **An entry put where it belongs.** -/
theorem Separated.insert (hs : Separated (A ++ [(k, l₁ ++ l₂)] ++ B)) (h₁ : ∀ f ∈ l₁, f.1 < e.1)
    (h₂ : ∀ f ∈ l₂, e.1 < f.1) (hA : A ≠ [] → k ≤ e.1) (hB : ∀ b ∈ B, e.1 < b.1) :
    Separated (A ++ [(k, l₁ ++ e :: l₂)] ++ B) := by
  rw [Separated.append_iff, Separated.append_iff] at hs ⊢
  obtain ⟨⟨hsA, hmid, hAm⟩, hsB, hAB⟩ := hs
  have hinc := Separated.singleton_iff.mp hmid
  refine ⟨⟨hsA, Separated.singleton_iff.mpr (hinc.insert h₁ h₂), fun a ha w hw => ?_⟩, hsB,
    fun a ha b hb => ?_⟩
  · rw [List.mem_singleton.mp hw]
    obtain ⟨h3, h4⟩ := hAm a ha _ (List.mem_singleton_self _)
    refine ⟨h3, fun f hf => ?_⟩
    simp only [List.mem_append, List.mem_cons] at hf
    rcases hf with hf | rfl | hf
    · exact h4 f (List.mem_append_left _ hf)
    · exact hA (List.ne_nil_of_mem ha)
    · exact h4 f (List.mem_append_right _ hf)
  · rcases List.mem_append.mp ha with ha | ha
    · exact hAB a (List.mem_append_left _ ha) b hb
    · rw [List.mem_singleton.mp ha]
      obtain ⟨h3, h4⟩ := hAB (k, l₁ ++ l₂) (by simp) b hb
      refine ⟨fun f hf => ?_, h4⟩
      simp only [List.mem_append, List.mem_cons] at hf
      rcases hf with hf | rfl | hf
      · exact h3 f (List.mem_append_left _ hf)
      · exact hB b hb
      · exact h3 f (List.mem_append_right _ hf)

/-- **An entry taken out.** -/
theorem Separated.erase (hs : Separated (A ++ [(k, l₁ ++ e :: l₂)] ++ B)) :
    Separated (A ++ [(k, l₁ ++ l₂)] ++ B) := by
  have hsub : ∀ f ∈ l₁ ++ l₂, f ∈ l₁ ++ e :: l₂ := by
    intro f hf
    simp only [List.mem_append, List.mem_cons] at hf ⊢
    tauto
  obtain ⟨⟨_, hmid, hA⟩, _⟩ := by
    rw [Separated.append_iff, Separated.append_iff] at hs
    exact hs
  refine hs.window (by simp) ?_ (by simpa [entriesOf] using hsub) (fun a ha w hw => ?_)
  · refine Separated.singleton_iff.mpr ((Separated.singleton_iff.mp hmid).sublist ?_)
    exact (List.Sublist.refl _).append (List.sublist_cons_self ..)
  · rw [List.mem_singleton.mp hw]
    obtain ⟨h3, h4⟩ := hA a ha _ (List.mem_singleton_self _)
    exact ⟨h3, fun f hf => h4 f (hsub f hf)⟩

/-- In increasing entries a key stands for its entry. -/
theorem Increasing.filter_ne (h : Increasing (l₁ ++ e :: l₂)) :
    (l₁ ++ e :: l₂).filter (fun f => f.1 ≠ e.1) = l₁ ++ l₂ := by
  obtain ⟨_, hl', hcross⟩ := Increasing.append_iff.mp h
  have h₁ : ∀ f ∈ l₁, f.1 ≠ e.1 := fun f hf => ne_of_lt (hcross f hf e (by simp))
  have h₂ : ∀ f ∈ l₂, f.1 ≠ e.1 := fun f hf => Ne.symm (ne_of_lt ((List.pairwise_cons.mp hl').1 f hf))
  rw [List.filter_append, List.filter_cons_of_neg (by simp), List.filter_eq_self.mpr (by simpa using h₁),
    List.filter_eq_self.mpr (by simpa using h₂)]

/-! ## Ranges of keys -/

theorem Increasing.filter_le (h : Increasing l) (hi : κ) :
    l.filter (fun e => e.1 ≤ hi) = l.take (l.countP (fun e => e.1 ≤ hi)) := by
  induction l with
  | nil => rfl
  | cons e l ih =>
      obtain ⟨hall, hl⟩ := List.pairwise_cons.mp h
      by_cases he : e.1 ≤ hi
      · rw [List.filter_cons_of_pos (by simpa using he), List.countP_cons_of_pos (by simpa using he),
          List.take_succ_cons, ih hl]
      · -- nothing behind it is smaller
        have hnone : ∀ f ∈ e :: l, ¬ f.1 ≤ hi := by
          intro f hf
          rcases List.mem_cons.mp hf with rfl | hf
          · exact he
          · exact not_le.mpr (lt_trans (not_le.mp he) (hall f hf))
        rw [List.countP_eq_zero.mpr (by simpa using hnone), List.take_zero]
        exact List.filter_eq_nil_iff.mpr (by simpa using hnone)

/-- **The entries of a range** are those between the number of smaller keys and the number of
keys that are not greater. -/
theorem Increasing.filter_range (h : Increasing l) {lo hi : κ} (hle : lo ≤ hi) :
    l.filter (fun e => lo ≤ e.1 ∧ e.1 ≤ hi)
      = (l.drop (l.countP (fun e => e.1 < lo))).take
        (l.countP (fun e => e.1 ≤ hi) - l.countP (fun e => e.1 < lo)) := by
  induction l with
  | nil => rfl
  | cons e l ih =>
      obtain ⟨hall, hl⟩ := List.pairwise_cons.mp h
      by_cases he : e.1 < lo
      · have hhi : e.1 ≤ hi := (le_of_lt he).trans hle
        have h₁ : (e :: l).countP (fun f => f.1 < lo) = l.countP (fun f => f.1 < lo) + 1 :=
          List.countP_cons_of_pos (by simpa using he)
        have h₂ : (e :: l).countP (fun f => f.1 ≤ hi) = l.countP (fun f => f.1 ≤ hi) + 1 :=
          List.countP_cons_of_pos (by simpa using hhi)
        rw [List.filter_cons_of_neg (by simp [he]), h₁, h₂, List.drop_succ_cons,
          Nat.add_sub_add_right, ih hl]
      · have hge : ∀ f ∈ e :: l, lo ≤ f.1 := by
          intro f hf
          rcases List.mem_cons.mp hf with rfl | hf
          · exact not_lt.mp he
          · exact (not_lt.mp he).trans (le_of_lt (hall f hf))
        have hzero : (e :: l).countP (fun f => f.1 < lo) = 0 :=
          List.countP_eq_zero.mpr (by simpa using hge)
        rw [hzero, List.drop_zero, Nat.sub_zero, ← h.filter_le]
        refine List.filter_congr (fun f hf => ?_)
        simp [hge f hf]

/-! ## Groups of blocks -/

/-- Blocks in groups, each group under a label of its own: read as blocks. -/
def coarse (gs : List (κ × List (κ × List (κ × β)))) : List (κ × List (κ × β)) :=
  gs.map fun g => (g.1, entriesOf g.2)

/-- No group and no block is empty, and a group that has one before it starts with a block of
the same label. -/
structure Grouped (gs : List (κ × List (κ × List (κ × β)))) : Prop where
  blocks : ∀ g ∈ gs, g.2 ≠ []
  entries : ∀ g ∈ gs, ∀ b ∈ g.2, b.2 ≠ []
  labels : ∀ g ∈ gs.tail, g.2.head?.map Prod.fst = some g.1

theorem Before.trans {b b' b'' : κ × List (κ × β)} (h : Before b b') (hne : b'.2 ≠ [])
    (h' : Before b' b'') : Before b b'' := by
  refine ⟨fun e he => ?_, h'.2⟩
  obtain ⟨f, hf⟩ := List.exists_mem_of_ne_nil b'.2 hne
  exact lt_of_lt_of_le (h.1 e he) ((h.2 f hf).trans (le_of_lt (h'.1 f hf)))

/-- Blocks in a row, none of them empty: neighbours are enough. -/
theorem pairwise_before_of_chain (hne : ∀ b ∈ bs, b.2 ≠ []) (hc : bs.IsChain Before) :
    bs.Pairwise Before := by
  induction bs with
  | nil => exact List.Pairwise.nil
  | cons b bs ih =>
      have ih' := ih (fun b' hb' => hne b' (List.mem_cons_of_mem _ hb')) hc.tail
      refine List.pairwise_cons.mpr ⟨fun b'' hb'' => ?_, ih'⟩
      cases bs with
      | nil => exact absurd hb'' (by simp)
      | cons b' bs =>
          have hfirst : Before b b' := (List.isChain_cons_cons.mp hc).1
          rcases List.mem_cons.mp hb'' with rfl | hb''
          · exact hfirst
          · exact hfirst.trans (hne b' (by simp)) ((List.pairwise_cons.mp ih').1 b'' hb'')

omit [LinearOrder κ] in
theorem entriesOf_coarse {gs : List (κ × List (κ × List (κ × β)))} :
    entriesOf (coarse gs) = entriesOf (gs.flatMap Prod.snd) := by
  unfold entriesOf coarse
  rw [List.flatMap_map, List.flatMap_assoc]
  rfl

/-- What comes before a group comes before all its blocks. -/
theorem Before.into_group {b : κ × List (κ × β)} {g : κ × List (κ × List (κ × β))}
    (h : Before b (g.1, entriesOf g.2)) (hsep : Separated g.2) (hne : ∀ b' ∈ g.2, b'.2 ≠ [])
    (hlabel : g.2.head?.map Prod.fst = some g.1) {b' : κ × List (κ × β)} (hb' : b' ∈ g.2) :
    Before b b' := by
  obtain ⟨k, bs⟩ := g
  cases bs with
  | nil => exact absurd hb' (by simp)
  | cons b₀ bs =>
      have hk : b₀.1 = k := Option.some.inj hlabel
      -- the first block has the label of the group
      have hfirst : Before b b₀ := by
        refine ⟨fun e he => ?_, fun e he => ?_⟩
        · rw [hk]
          exact h.1 e he
        · rw [hk]
          exact h.2 e (mem_entriesOf.mpr ⟨b₀, by simp, he⟩)
      rcases List.mem_cons.mp hb' with rfl | hb'
      · exact hfirst
      · exact hfirst.trans (hne b₀ (by simp)) ((List.pairwise_cons.mp hsep.apart).1 b' hb')

/-- **From groups to blocks.** -/
theorem Separated.refine {gs : List (κ × List (κ × List (κ × β)))} (hg : Grouped gs)
    (hs : Separated (coarse gs)) (hin : ∀ g ∈ gs, Separated g.2) :
    Separated (gs.flatMap Prod.snd) := by
  induction gs with
  | nil => exact ⟨List.Pairwise.nil, fun b hb => absurd hb (by simp)⟩
  | cons g gs ih =>
      obtain ⟨hg₁, hgs, hcross⟩ := Separated.append_iff.mp
        (show Separated ([(g.1, entriesOf g.2)] ++ coarse gs) from hs)
      have hrest : Grouped gs := ⟨fun g' h' => hg.blocks g' (List.mem_cons_of_mem _ h'),
        fun g' h' => hg.entries g' (List.mem_cons_of_mem _ h'),
        fun g' h' => hg.labels g' (List.mem_of_mem_tail h')⟩
      rw [List.flatMap_cons, Separated.append_iff]
      refine ⟨hin g (by simp), ih hrest hgs (fun g' h' => hin g' (List.mem_cons_of_mem _ h')), ?_⟩
      intro b hb b' hb'
      obtain ⟨g', hg', hb''⟩ := List.mem_flatMap.mp hb'
      have hbefore := hcross (g.1, entriesOf g.2) (by simp) (g'.1, entriesOf g'.2)
        (List.mem_map_of_mem hg')
      have hb₁ : Before b (g'.1, entriesOf g'.2) :=
        ⟨fun e he => hbefore.1 e (mem_entriesOf.mpr ⟨b, hb, he⟩), hbefore.2⟩
      exact hb₁.into_group (hin g' (List.mem_cons_of_mem _ hg'))
        (hg.entries g' (List.mem_cons_of_mem _ hg')) (hg.labels g' hg') hb''

/-- **From blocks to groups.** -/
theorem Separated.coarsen {gs : List (κ × List (κ × List (κ × β)))} (hg : Grouped gs)
    (hs : Separated (gs.flatMap Prod.snd)) :
    Separated (coarse gs) ∧ ∀ g ∈ gs, Separated g.2 := by
  induction gs with
  | nil => exact ⟨⟨List.Pairwise.nil, fun b hb => absurd hb (by simp [coarse])⟩, by simp⟩
  | cons g gs ih =>
      rw [List.flatMap_cons, Separated.append_iff] at hs
      obtain ⟨hg₁, hgs, hcross⟩ := hs
      have hrest : Grouped gs := ⟨fun g' h' => hg.blocks g' (List.mem_cons_of_mem _ h'),
        fun g' h' => hg.entries g' (List.mem_cons_of_mem _ h'),
        fun g' h' => hg.labels g' (List.mem_of_mem_tail h')⟩
      obtain ⟨ih₁, ih₂⟩ := ih hrest hgs
      constructor
      · show Separated ([(g.1, entriesOf g.2)] ++ coarse gs)
        rw [Separated.append_iff]
        refine ⟨Separated.singleton_iff.mpr hg₁.increasing, ih₁, ?_⟩
        intro b hb b' hb'
        rw [List.mem_singleton.mp hb]
        obtain ⟨g', hg', rfl⟩ := List.mem_map.mp hb'
        have hlabel := hg.labels g' hg'
        have hsep := ih₂ g' hg'
        obtain ⟨k, bs⟩ := g'
        cases bs with
        | nil => exact absurd hlabel (by simp)
        | cons b₀ bs =>
            obtain rfl : b₀.1 = k := Option.some.inj hlabel
            -- the first block of a later group carries the label of the group
            have hb₀ : ∀ b₁ ∈ g.2, Before b₁ b₀ := fun b₁ h₁ =>
              hcross b₁ h₁ b₀ (List.mem_flatMap.mpr ⟨_, hg', by simp⟩)
            obtain ⟨b₁, hb₁⟩ := List.exists_mem_of_ne_nil g.2 (hg.blocks g (by simp))
            obtain ⟨f, hf⟩ := List.exists_mem_of_ne_nil b₀.2
              (hg.entries _ (List.mem_cons_of_mem _ hg') b₀ (by simp))
            refine ⟨fun e he => ?_, fun e he => ?_⟩
            · obtain ⟨b₂, hb₂, he₂⟩ := mem_entriesOf.mp he
              exact (hb₀ b₂ hb₂).1 e he₂
            · -- a later block is above the first one, which is above the label
              obtain ⟨b₂, hb₂, he₂⟩ := mem_entriesOf.mp he
              rcases List.mem_cons.mp hb₂ with rfl | hb₂
              · exact (hb₀ b₁ hb₁).2 e he₂
              · obtain ⟨h1, h2⟩ := (List.pairwise_cons.mp hsep.apart).1 b₂ hb₂
                exact ((hb₀ b₁ hb₁).2 f hf).trans ((le_of_lt (h1 f hf)).trans (h2 e he₂))
      · intro g' hg'
        rcases List.mem_cons.mp hg' with rfl | hg'
        · exact hg₁
        · exact ih₂ g' hg'

/-! ## Blocks under their first key -/

/-- The label of the block is its first key. -/
def Labelled (b : κ × List (κ × β)) : Prop := b.2.head?.map Prod.fst = some b.1

/-- All blocks but the first are labelled with their first key. -/
def Fit (bs : List (κ × List (κ × β))) : Prop := ∀ b ∈ bs.tail, Labelled b

omit [LinearOrder κ] in
theorem Fit.window (hA : ∀ b ∈ A.tail, Labelled b) (hB : ∀ b ∈ B, Labelled b) (hne : W ≠ [])
    (htail : ∀ b ∈ W.tail, Labelled b) (hall : A ≠ [] → ∀ b ∈ W, Labelled b) :
    Fit (A ++ W ++ B) := by
  intro b hb
  cases A with
  | nil =>
      rw [List.nil_append, List.tail_append_of_ne_nil hne] at hb
      rcases List.mem_append.mp hb with hb | hb
      · exact htail b hb
      · exact hB b hb
  | cons a A =>
      rcases List.mem_append.mp hb with hb | hb
      · rcases List.mem_append.mp hb with hb | hb
        · exact hA b hb
        · exact hall (by simp) b hb
      · exact hB b hb

omit [LinearOrder κ] in
/-- Only the block that was the first of the second list may be in the way when two lists are
cut anew. -/
theorem Fit.regroup {b : κ × List (κ × β)} (hW : W ≠ []) (hA : A ≠ [])
    (heq : A ++ B = W ++ b :: W') (hlen : A.length ≠ W.length) (hf : Fit W) (hf' : Fit (b :: W')) :
    (Fit A ∧ Fit B) ↔ Labelled b := by
  rcases List.append_eq_append_iff.mp heq with ⟨M, rfl, rfl⟩ | ⟨M, rfl, hM⟩
  · -- the cut moves to the left
    have hM : M ≠ [] := by
      rintro rfl
      simp at hlen
    have hin : ∀ a, a ∈ A.tail ∨ a ∈ M → Labelled a := by
      intro a ha
      refine hf a ?_
      rw [List.tail_append_of_ne_nil hA]
      exact List.mem_append.mpr ha
    unfold Fit
    rw [List.tail_append_of_ne_nil hM]
    constructor
    · exact fun h => h.2 b (by simp)
    · refine fun hb => ⟨fun a ha => hin a (.inl ha), fun a ha => ?_⟩
      rcases List.mem_append.mp ha with ha | ha
      · exact hin a (.inr (List.mem_of_mem_tail ha))
      · rcases List.mem_cons.mp ha with rfl | ha
        · exact hb
        · exact hf' a ha
  · -- to the right
    cases M with
    | nil => simp at hlen
    | cons m M =>
        obtain ⟨rfl, rfl⟩ := List.cons.inj hM
        unfold Fit
        rw [List.tail_append_of_ne_nil hW]
        constructor
        · exact fun h => h.1 b (by simp)
        · refine fun hb => ⟨fun a ha => ?_, fun a ha => ?_⟩
          · rcases List.mem_append.mp ha with ha | ha
            · exact hf a ha
            · rcases List.mem_cons.mp ha with rfl | ha
              · exact hb
              · exact hf' a (List.mem_append_left _ ha)
          · exact hf' a (List.mem_append_right _ (List.mem_of_mem_tail ha))

end Rucbase.Lib
