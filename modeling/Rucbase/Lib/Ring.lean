import Mathlib.Data.List.Chain
import Mathlib.Data.List.Nodup

/-!
# Doubly linked rings

A list of nodes and a head, linked in a circle by a `next` and a `prev` pointer of each. A node
is linked in behind another, or unlinked, by changing the pointers of its two neighbours; all
other pointers stay.
-/

namespace Rucbase.Lib

variable {ν : Type}

/-- `b` follows `a`, seen from both sides. -/
def Linked (nxt prv : ν → ν) (a b : ν) : Prop := nxt a = b ∧ prv b = a

/-- The head and the nodes of `l`, in a circle. -/
def Ring (nxt prv : ν → ν) (hd : ν) (l : List ν) : Prop :=
  List.IsChain (Linked nxt prv) (hd :: l ++ [hd])

variable {nxt prv nxt' prv' : ν → ν} {hd x y z p : ν} {l A B : List ν}

/-- What follows a node depends on that node only. -/
theorem Linked.left_eq {a b : ν} (h : Linked nxt prv a y) (h' : Linked nxt prv b y) : a = b :=
  h.2.symm.trans h'.2

theorem Linked.right_eq {a b : ν} (h : Linked nxt prv x a) (h' : Linked nxt prv x b) : a = b :=
  h.1.symm.trans h'.1

namespace Ring

/-- Pointers of other nodes do not matter. -/
theorem congr (h : Ring nxt prv hd l) (hn : ∀ w ∈ hd :: l, nxt' w = nxt w)
    (hp : ∀ w ∈ hd :: l, prv' w = prv w) : Ring nxt' prv' hd l := by
  refine h.imp_of_mem_imp (fun a b ha hb hab => ?_)
  have hmem : ∀ w ∈ hd :: l ++ [hd], w ∈ hd :: l := by
    intro w hw
    rcases List.mem_append.mp hw with hw | hw
    · exact hw
    · rw [List.mem_singleton.mp hw]
      exact List.mem_cons_self
  exact ⟨(hn a (hmem a ha)).trans hab.1, (hp b (hmem b hb)).trans hab.2⟩

/-- The node behind `x`. -/
theorem next (h : Ring nxt prv hd (A ++ x :: B)) : (B ++ [hd]).head? = some (nxt x) := by
  unfold Ring at h
  rw [show hd :: (A ++ x :: B) ++ [hd] = (hd :: A) ++ x :: (B ++ [hd]) by simp,
    List.isChain_split] at h
  cases hB : B ++ [hd] with
  | nil => simp at hB
  | cons y T =>
      rw [hB, List.isChain_cons_cons] at h
      rw [List.head?_cons, h.2.1.1]

/-- The node before `x`. -/
theorem prev (h : Ring nxt prv hd (A ++ x :: B)) : (hd :: A).getLast? = some (prv x) := by
  unfold Ring at h
  rw [show hd :: (A ++ x :: B) ++ [hd] = (hd :: A) ++ x :: (B ++ [hd]) by simp,
    List.isChain_split] at h
  rcases List.eq_nil_or_concat (hd :: A) with hA | ⟨T, p, hA⟩
  · exact absurd hA (by simp)
  · rw [List.concat_eq_append] at hA
    rw [hA, List.append_assoc] at h
    have hlink : Linked nxt prv p x := (List.isChain_append_cons_cons.mp h.1).2.1
    rw [hA, List.getLast?_append, List.getLast?_singleton, hlink.2]
    rfl

/-- The neighbours of a node are in the ring. -/
theorem next_mem (h : Ring nxt prv hd l) (hx : x ∈ l) : nxt x ∈ hd :: l := by
  obtain ⟨A, B, rfl⟩ := List.append_of_mem hx
  have hmem := List.mem_of_mem_head? (h.next)
  simp only [List.mem_append, List.mem_singleton] at hmem
  simp only [List.mem_cons, List.mem_append]
  tauto

theorem prev_mem (h : Ring nxt prv hd l) (hx : x ∈ l) : prv x ∈ hd :: l := by
  obtain ⟨A, B, rfl⟩ := List.append_of_mem hx
  have hmem := List.mem_of_mem_getLast? (h.prev)
  simp only [List.mem_cons, List.mem_append] at hmem ⊢
  tauto

/-- **A node linked in behind `x`.** -/
theorem link (h : Ring nxt prv hd (A ++ x :: B)) (hnd : (hd :: (A ++ x :: B)).Nodup)
    (hz : z ∉ hd :: (A ++ x :: B)) (hx : nxt' x = z) (hzn : nxt' z = nxt x) (hzp : prv' z = x)
    (hy : prv' (nxt x) = z) (hn : ∀ w, w ≠ x → w ≠ z → nxt' w = nxt w)
    (hp : ∀ w, w ≠ nxt x → w ≠ z → prv' w = prv w) :
    Ring nxt' prv' hd (A ++ x :: z :: B) := by
  have hnext := h.next
  unfold Ring at h ⊢
  rw [show hd :: (A ++ x :: B) ++ [hd] = (hd :: A) ++ x :: (B ++ [hd]) by simp,
    List.isChain_split] at h
  rw [show hd :: (A ++ x :: z :: B) ++ [hd] = (hd :: A) ++ x :: z :: (B ++ [hd]) by simp,
    List.isChain_split, List.isChain_cons_cons]
  have hAB : ∀ w ∈ A ++ [x], w ∉ B ++ [hd] := by
    intro w hw hw'
    simp only [List.nodup_cons, List.nodup_append, List.mem_append, List.mem_cons] at hnd
    simp only [List.mem_append, List.mem_singleton] at hw hw'
    grind
  have hxB : x ∉ B ++ [hd] := hAB x (by simp)
  cases hB : B ++ [hd] with
  | nil => simp at hB
  | cons y T =>
      rw [hB, List.isChain_cons_cons] at h
      rw [hB, List.head?_cons, Option.some.injEq] at hnext
      obtain ⟨hA, hxy, hT⟩ := h
      -- a link between others is kept
      have hkeep : ∀ a b, a ≠ x → a ∈ hd :: (A ++ x :: B) → b ∈ hd :: (A ++ x :: B) →
          Linked nxt prv a b → Linked nxt' prv' a b := by
        intro a b hax ha hb hab
        have hby : b ≠ nxt x := by
          rw [← hnext]
          rintro rfl
          exact hax (hab.left_eq hxy)
        exact ⟨(hn a hax (fun heq => hz (heq ▸ ha))).trans hab.1,
          (hp b hby (fun heq => hz (heq ▸ hb))).trans hab.2⟩
      refine ⟨hA.imp_of_mem_tail_imp (fun a b ha hb hab => hkeep a b ?_ ?_ ?_ hab), ⟨hx, hzp⟩, ?_⟩
      · -- `x` is followed by something behind it
        rintro rfl
        rw [hab.right_eq hxy] at hb
        refine hAB y ?_ (by rw [hB]; exact List.mem_cons_self)
        simpa using hb
      · simp only [List.cons_append, List.mem_cons, List.mem_append, List.not_mem_nil] at ha ⊢
        tauto
      · simp only [List.cons_append, List.tail_cons, List.mem_append, List.mem_cons,
          List.not_mem_nil] at hb ⊢
        tauto
      · rw [List.isChain_cons_cons]
        have hsub : ∀ w ∈ y :: T, w ∈ hd :: (A ++ x :: B) := by
          intro w hw
          rw [← hB] at hw
          simp only [List.mem_append, List.mem_cons, List.not_mem_nil] at hw ⊢
          tauto
        refine ⟨⟨hzn.trans hnext.symm, hnext ▸ hy⟩, ?_⟩
        refine hT.imp_of_mem_imp (fun a b ha hb hab => hkeep a b ?_ (hsub a ha) (hsub b hb) hab)
        rintro rfl
        exact hxB (hB ▸ ha)

/-- **A node taken out.** -/
theorem unlink (h : Ring nxt prv hd (A ++ z :: B)) (hnd : (hd :: (A ++ z :: B)).Nodup)
    (hn : nxt' (prv z) = nxt z) (hp : prv' (nxt z) = prv z)
    (hn' : ∀ w, w ≠ prv z → nxt' w = nxt w) (hp' : ∀ w, w ≠ nxt z → prv' w = prv w) :
    Ring nxt' prv' hd (A ++ B) := by
  have hnext := h.next
  have hprev := h.prev
  unfold Ring at h ⊢
  rw [show hd :: (A ++ z :: B) ++ [hd] = (hd :: A) ++ z :: (B ++ [hd]) by simp,
    List.isChain_split] at h
  rw [show hd :: (A ++ B) ++ [hd] = (hd :: A) ++ (B ++ [hd]) by simp]
  have hzA : z ∉ hd :: A := by
    intro hmem
    simp only [List.nodup_cons, List.nodup_append, List.mem_append, List.mem_cons] at hnd hmem
    grind
  have hzB : z ∉ B ++ [hd] := by
    intro hmem
    simp only [List.nodup_cons, List.nodup_append, List.mem_append, List.mem_cons,
      List.not_mem_nil] at hnd hmem
    grind
  rcases List.eq_nil_or_concat (hd :: A) with hA | ⟨T, p, hA⟩
  · exact absurd hA (by simp)
  rw [List.concat_eq_append] at hA
  cases hB : B ++ [hd] with
  | nil => simp at hB
  | cons y U =>
      rw [hA] at hprev hzA h ⊢
      rw [hB] at hnext hzB h
      rw [List.getLast?_append, List.getLast?_singleton, Option.some_or, Option.some.injEq] at hprev
      rw [List.head?_cons, Option.some.injEq] at hnext
      rw [List.append_assoc, List.singleton_append, List.isChain_append_cons_cons,
        List.isChain_cons_cons] at h
      obtain ⟨⟨hT, hpz, _⟩, hzy, hU⟩ := h
      rw [List.append_assoc, List.singleton_append, List.isChain_append_cons_cons]
      -- links that do not touch `z` are kept
      have hkeep : ∀ a b, a ≠ z → b ≠ z → Linked nxt prv a b → Linked nxt' prv' a b := by
        intro a b ha hb hab
        refine ⟨(hn' a ?_).trans hab.1, (hp' b ?_).trans hab.2⟩
        · rw [← hprev]
          rintro rfl
          exact hb (hab.right_eq hpz)
        · rw [← hnext]
          rintro rfl
          exact ha (hab.left_eq hzy)
      refine ⟨?_, ⟨?_, ?_⟩, ?_⟩
      · refine hT.imp_of_mem_imp (fun a b ha hb hab => hkeep a b ?_ ?_ hab)
        · exact fun heq => hzA (heq ▸ ha)
        · exact fun heq => hzA (heq ▸ hb)
      · rw [hprev, hn, hnext]
      · rw [hprev, hnext, hp]
      · refine hU.imp_of_mem_imp (fun a b ha hb hab => hkeep a b ?_ ?_ hab)
        · exact fun heq => hzB (heq ▸ ha)
        · exact fun heq => hzB (heq ▸ hb)

end Ring

end Rucbase.Lib
