import Rucbase.Lib.Run
import Rucbase.Replacer.LruReplacer
import Mathlib.Data.Set.Card

/-!
# Least-recently-unpinned replacement

What `LRUReplacer` is for, said of its history alone: a frame is evictable when its last
accepted `Unpin` is later than its last `Pin` and its last return by `Victim`, and the victim
is the evictable frame whose accepted `Unpin` is the oldest.

Every call is one moment of time; moment `n + 1` is the call made after `n` others. The list
holds the evictable frames in the order of those moments, which is the invariant behind all of
it: a repeated `Unpin` is not accepted, so it cannot refresh the order.
-/

namespace Rucbase

open Lib

inductive LruCall where
  | victim
  | pin (frameId : Nat)
  | unpin (frameId : Nat)
deriving DecidableEq, Repr

/-- One call, with the replacer it was made on and the frame it returned. -/
structure LruEvent where
  before : LRUReplacer
  call : LruCall
  ret : Option Nat

namespace LruEvent

/-- An `Unpin` of `f` that puts it in the list: it was not there, and the list was not full. -/
def accepts (e : LruEvent) (f : Nat) : Prop :=
  e.call = .unpin f ∧ e.before.lruHash f = none ∧ e.before.size < e.before.maxSize

instance (e : LruEvent) (f : Nat) : Decidable (e.accepts f) :=
  inferInstanceAs (Decidable (_ ∧ _ ∧ _))

/-- A `Pin` of `f`, or a `Victim` that returned it. -/
def takes (e : LruEvent) (f : Nat) : Prop := e.call = .pin f ∨ (e.call = .victim ∧ e.ret = some f)

instance (e : LruEvent) (f : Nat) : Decidable (e.takes f) :=
  inferInstanceAs (Decidable (_ ∨ (_ ∧ _)))

end LruEvent

namespace LRUReplacer

/-- The moment of the last event that `P` holds of, 0 when there is none. -/
def lastWhen (P : LruEvent → Prop) [DecidablePred P] : List LruEvent → Nat
  | [] => 0
  | e :: h => if P e then h.length + 1 else lastWhen P h

/-- When `f` was last accepted by `Unpin`. -/
def lastUnpin (h : List LruEvent) (f : Nat) : Nat := lastWhen (fun e => e.accepts f) h

/-- When `f` was last pinned or returned by `Victim`. -/
def lastTaken (h : List LruEvent) (f : Nat) : Nat := lastWhen (fun e => e.takes f) h

/-- The frame is evictable, by the history alone. -/
def Evictable (h : List LruEvent) (f : Nat) : Prop := lastTaken h f < lastUnpin h f

/-- One call on the replacer. -/
def EventStep (r : LRUReplacer) (e : LruEvent) (r' : LRUReplacer) : Prop :=
  e.before = r ∧
    match e.call with
    | .victim => r.victim = (e.ret, r')
    | .pin f => e.ret = none ∧ r' = r.pin f
    | .unpin f => e.ret = none ∧ r' = r.unpin f

variable {r r' : LRUReplacer} {e : LruEvent} {h : List LruEvent} {f g n : Nat}
  {P : LruEvent → Prop} [DecidablePred P]

theorem lastWhen_le : lastWhen P h ≤ h.length := by
  induction h with
  | nil => exact le_rfl
  | cons e h ih =>
      rw [lastWhen, List.length_cons]
      split
      · exact le_rfl
      · omega

theorem lastWhen_pos (he : P e) : lastWhen P (e :: h) = h.length + 1 := by
  rw [lastWhen, if_pos he]

theorem lastWhen_neg (he : ¬ P e) : lastWhen P (e :: h) = lastWhen P h := by
  rw [lastWhen, if_neg he]

/-! ## The list, call by call -/

theorem sublist_eraseNode {m : LruNode} {hm : m ∈ r.lruList} :
    (r.eraseNode m hm).frames.Sublist r.frames := List.filter_sublist.map _

theorem sublist_pin : (r.pin f).frames.Sublist r.frames := by
  unfold pin
  split
  · exact List.Sublist.refl _
  · exact sublist_eraseNode

/-- The victim is the last frame of the list. -/
theorem victim_last (hv : r.victim = (some f, r')) :
    r.frames.getLast? = some f ∧ r'.frames.Sublist r.frames := by
  unfold victim at hv
  split at hv
  · exact absurd (congrArg Prod.fst hv) (by simp)
  · rename_i m hl
    have hf : m.frameId = f := Option.some.inj (congrArg Prod.fst hv)
    have hr : r' = r.eraseNode m (List.mem_of_getLast? hl) := (congrArg Prod.snd hv).symm
    subst hf hr
    refine ⟨?_, sublist_eraseNode⟩
    rw [frames, List.getLast?_map, hl]
    rfl

/-- An `Unpin` that is not accepted changes nothing. -/
theorem unpin_refused (hno : ¬ (r.lruHash f = none ∧ r.size < r.maxSize)) : r.unpin f = r := by
  unfold unpin
  split
  · rfl
  · rename_i hh
    split
    · rfl
    · rename_i hs
      refine absurd ⟨Option.not_isSome_iff_eq_none.mp hh, ?_⟩ hno
      unfold size
      omega

/-- An accepted `Unpin` puts the frame at the front. -/
theorem unpin_accepted (hh : r.lruHash f = none) (hs : r.size < r.maxSize) :
    (r.unpin f).frames = f :: r.frames := by
  unfold unpin
  split
  · rename_i hsome
    rw [hh] at hsome
    exact absurd hsome (by simp)
  · split
    · rename_i hfull
      unfold size at hs
      omega
    · rfl

/-! ## The invariant -/

/-- **List and history tell the same story.** -/
structure Remembers (n : Nat) (r : LRUReplacer) (h : List LruEvent) : Prop where
  cap : r.maxSize = n
  mem : ∀ f, f ∈ r.frames ↔ Evictable h f
  /-- Most recently accepted first. -/
  order : r.frames.Pairwise (fun f g => lastUnpin h g < lastUnpin h f)

theorem Remembers.init (n : Nat) : Remembers n (new n) [] where
  cap := rfl
  mem := by
    intro f
    simp [Evictable, lastUnpin, lastTaken, lastWhen]
  order := List.Pairwise.nil

/-- A call that accepts no frame keeps the order of those that stay. -/
theorem Remembers.shrink (hr : Remembers n r h) (hcap : r'.maxSize = r.maxSize)
    (hsub : r'.frames.Sublist r.frames) (hno : ∀ f, ¬ e.accepts f)
    (hmem : ∀ f, f ∈ r'.frames ↔ ¬ e.takes f ∧ f ∈ r.frames) : Remembers n r' (e :: h) := by
  have hunpin : ∀ f, lastUnpin (e :: h) f = lastUnpin h f := fun f => lastWhen_neg (hno f)
  refine ⟨hcap.trans hr.cap, ?_, ?_⟩
  · intro f
    rw [hmem, hr.mem, Evictable, Evictable, hunpin]
    by_cases ht : e.takes f
    · have h1 : lastTaken (e :: h) f = h.length + 1 := lastWhen_pos ht
      have h2 : lastUnpin h f ≤ h.length := lastWhen_le
      rw [h1]
      simp only [ht, not_true_eq_false, false_and, false_iff]
      omega
    · have h1 : lastTaken (e :: h) f = lastTaken h f := lastWhen_neg ht
      rw [h1]
      simp only [ht, not_false_eq_true, true_and]
  · refine (hr.order.sublist hsub).imp ?_
    intro f g hfg
    rw [hunpin, hunpin]
    exact hfg

/-- The frame accepted last is the most recent one. -/
theorem Remembers.grow (hr : Remembers n r h) (hcall : e.call = .unpin f) (hacc : e.accepts f)
    (hcap : r'.maxSize = r.maxSize) (hframes : r'.frames = f :: r.frames) :
    Remembers n r' (e :: h) := by
  have hself : lastUnpin (e :: h) f = h.length + 1 := lastWhen_pos hacc
  -- for the other frames the call is as if it had not been
  have hother : ∀ g, g ≠ f → lastUnpin (e :: h) g = lastUnpin h g := by
    intro g hg
    refine lastWhen_neg ?_
    intro hc
    exact hg (LruCall.unpin.inj (hc.1.symm.trans hcall))
  have htaken : ∀ g, lastTaken (e :: h) g = lastTaken h g := by
    intro g
    refine lastWhen_neg ?_
    intro hc
    rcases hc with hc | hc
    · exact absurd (hc.symm.trans hcall) (by simp)
    · exact absurd (hc.1.symm.trans hcall) (by simp)
  have hfresh : f ∉ r.frames := by
    have hnodup := r'.frames_nodup
    rw [hframes] at hnodup
    exact (List.nodup_cons.mp hnodup).1
  refine ⟨hcap.trans hr.cap, ?_, ?_⟩
  · intro g
    rw [hframes, List.mem_cons, Evictable, htaken]
    by_cases hg : g = f
    · subst hg
      have : lastTaken h g ≤ h.length := lastWhen_le
      rw [hself]
      simp only [true_or, true_iff]
      omega
    · rw [hother g hg]
      simp only [hg, false_or]
      exact hr.mem g
  · rw [hframes]
    refine List.pairwise_cons.mpr ⟨?_, ?_⟩
    · intro g hg
      have hne : g ≠ f := by
        intro he
        exact hfresh (he ▸ hg)
      have : lastUnpin h g ≤ h.length := lastWhen_le
      rw [hself, hother g hne]
      omega
    · refine hr.order.imp_of_mem ?_
      intro a b ha hb hab
      have hne : ∀ c ∈ r.frames, c ≠ f := by
        intro c hc he
        exact hfresh (he ▸ hc)
      rw [hother a (hne a ha), hother b (hne b hb)]
      exact hab

/-- **One call keeps the story straight.** -/
theorem Remembers.step (hr : Remembers n r h) (hs : EventStep r e r') : Remembers n r' (e :: h) := by
  obtain ⟨before, call, ret⟩ := e
  obtain ⟨hbefore, hs⟩ := hs
  dsimp only at hbefore
  subst hbefore
  cases call with
  | pin f =>
      obtain ⟨_, rfl⟩ := hs
      refine hr.shrink (maxSize_pin ..) sublist_pin (by simp [LruEvent.accepts]) ?_
      intro g
      rw [mem_frames_pin]
      simp [LruEvent.takes, eq_comm]
  | unpin f =>
      obtain ⟨_, rfl⟩ := hs
      by_cases hacc : before.lruHash f = none ∧ before.size < before.maxSize
      · exact hr.grow rfl ⟨rfl, hacc⟩ (maxSize_unpin ..) (unpin_accepted hacc.1 hacc.2)
      · rw [unpin_refused hacc]
        refine hr.shrink rfl (List.Sublist.refl _) ?_ (by simp [LruEvent.takes])
        intro g hg
        have hgf : f = g := LruCall.unpin.inj hg.1
        exact hacc (hgf ▸ hg.2)
  | victim =>
      cases ret with
      | none =>
          obtain ⟨_, rfl⟩ := victim_none hs
          exact hr.shrink rfl (List.Sublist.refl _) (by simp [LruEvent.accepts])
            (by simp [LruEvent.takes])
      | some f =>
          obtain ⟨_, hmem, hcap⟩ := victim_some hs
          refine hr.shrink hcap (victim_last hs).2 (by simp [LruEvent.accepts]) ?_
          intro g
          rw [hmem]
          simp [LruEvent.takes, eq_comm]

/-! ## The result -/

/-- **`LRUReplacer` implements least-recently-unpinned replacement**: after any calls on a new
replacer, its list has no duplicates and fits the capacity, the hash sends the listed frames to
their own nodes, and list, `Victim` and `Size` are what the history says. -/
theorem replacer_of_run (hrun : Run EventStep (new n) h r) :
    (r.frames.Nodup ∧ r.lruList.length ≤ n)
      ∧ (∀ f, (∃ a, r.lruHash f = some a) ↔ f ∈ r.frames)
      ∧ (∀ f a, r.lruHash f = some a ↔ (⟨a, f⟩ : LruNode) ∈ r.lruList)
      ∧ (∀ f, f ∈ r.frames ↔ Evictable h f)
      ∧ (r.victim.1 = none ↔ ∀ f, ¬ Evictable h f)
      ∧ (∀ f r', r.victim = (some f, r') →
          Evictable h f ∧ (∀ g, Evictable h g → g = f ∨ lastUnpin h f < lastUnpin h g)
            ∧ ∀ g, g ∈ r'.frames ↔ g ≠ f ∧ g ∈ r.frames)
      ∧ r.size = {f | Evictable h f}.ncard := by
  have hr : Remembers n r h :=
    hrun.invariant_history (I := Remembers n) (.init n) (fun _ _ _ _ => Remembers.step)
  refine ⟨⟨r.frames_nodup, hr.cap ▸ r.size_le⟩, fun f => mem_frames.symm, r.hash_iff, hr.mem, ?_,
    ?_, ?_⟩
  · constructor
    · intro hv f hf
      have hnil := (victim_none (show r.victim = (none, r.victim.2) from by rw [← hv])).1
      have hmem := (hr.mem f).mpr hf
      rw [hnil] at hmem
      exact absurd hmem List.not_mem_nil
    · intro hno
      cases hv : r.victim.1 with
      | none => rfl
      | some f =>
          have hmem := (victim_some (show r.victim = (some f, r.victim.2) from by rw [← hv])).1
          exact absurd ((hr.mem f).mp hmem) (hno f)
  · intro f r' hv
    obtain ⟨hmem, hrest, _⟩ := victim_some hv
    refine ⟨(hr.mem f).mp hmem, ?_, hrest⟩
    intro g hg
    obtain ⟨l, hl⟩ := List.getLast?_eq_some_iff.mp (victim_last hv).1
    have horder := hr.order
    have hgmem := (hr.mem g).mpr hg
    rw [hl] at horder hgmem
    rcases List.mem_append.mp hgmem with hg | hg
    · exact .inr ((List.pairwise_append.mp horder).2.2 g hg f List.mem_cons_self)
    · exact .inl (List.mem_singleton.mp hg)
  · have hset : {f | Evictable h f} = (r.frames.toFinset : Set Nat) := by
      ext f
      show Evictable h f ↔ f ∈ (r.frames.toFinset : Set Nat)
      rw [← hr.mem]
      simp
    rw [hset, Set.ncard_coe_finset, List.toFinset_card_of_nodup r.frames_nodup, length_frames]

/-- Two frames fit; a repeated `Unpin` and one past the capacity are not accepted, so the first
frame is the victim. -/
theorem replacer_of_run_full : ∃ h r r', Run EventStep (new 2) h r ∧ h.length = 4
    ∧ r.victim = (some 5, r') ∧ Evictable h 5 ∧ r.size = {f | Evictable h f}.ncard := by
  have hrun : Run EventStep (new 2)
      [⟨_, .unpin 7, none⟩, ⟨_, .unpin 5, none⟩, ⟨_, .unpin 6, none⟩, ⟨_, .unpin 5, none⟩] _ :=
    .step (.step (.step (.step .nil ⟨rfl, rfl, rfl⟩) ⟨rfl, rfl, rfl⟩) ⟨rfl, rfl, rfl⟩) ⟨rfl, rfl, rfl⟩
  obtain ⟨_, _, _, _, _, hvictim, hsize⟩ := replacer_of_run hrun
  exact ⟨_, _, _, hrun, rfl, rfl, (hvictim 5 _ rfl).1, hsize⟩

end LRUReplacer

end Rucbase
