import Mathlib.Tactic.Common

/-!
# Runs of a labelled transition system

A system is given by a step relation `R : σ → ℓ → σ → Prop`. A *run* records the
labels it took, newest first, so that a property of the history ("how often was
this page pinned since it was loaded") is a function of the recorded list.

The one rule every safety argument above uses is `Run.invariant`: what holds at
the start and is kept by a step holds at the end of every run. Its variant
`Run.invariant_history` lets the invariant speak about the history as well.
-/

namespace Rucbase.Lib

variable {σ ℓ : Type}

/-- `Run R s h s'`: the steps in `h` (newest first) lead from `s` to `s'`. -/
inductive Run (R : σ → ℓ → σ → Prop) (s : σ) : List ℓ → σ → Prop where
  | nil : Run R s [] s
  | step {h : List ℓ} {s' s'' : σ} {l : ℓ} : Run R s h s' → R s' l s'' → Run R s (l :: h) s''

namespace Run

variable {R : σ → ℓ → σ → Prop}

/-- **The invariant rule**, for invariants that also read the history. -/
theorem invariant_history {I : σ → List ℓ → Prop} {s s' : σ} {h : List ℓ}
    (hrun : Run R s h s') (hinit : I s [])
    (hstep : ∀ t hs l t', I t hs → R t l t' → I t' (l :: hs)) : I s' h := by
  induction hrun with
  | nil => exact hinit
  | step _ hl ih => exact hstep _ _ _ _ ih hl

/-- **The invariant rule.** -/
theorem invariant {I : σ → Prop} {s s' : σ} {h : List ℓ}
    (hrun : Run R s h s') (hinit : I s)
    (hstep : ∀ t l t', I t → R t l t' → I t') : I s' :=
  hrun.invariant_history (I := fun t _ => I t) hinit (fun t _ l t' => hstep t l t')

/-- The relation of an executable step: label `(a, b)` is "asked `a`, answered `b`". -/
def Asks {α β : Type} (step : σ → α → Option (β × σ)) (s : σ) (l : α × β) (s' : σ) : Prop :=
  step s l.1 = some (l.2, s')

/-- Execute a list of requests, oldest first; the history comes out newest first. -/
def replay {α β : Type} (step : σ → α → Option (β × σ)) (h : List (α × β)) (s : σ) :
    List α → Option (List (α × β) × σ)
  | [] => some (h, s)
  | a :: as =>
      match step s a with
      | none => none
      | some (b, s') => replay step ((a, b) :: h) s' as

/-- A replay that gets to the end is a run. -/
theorem of_replay {α β : Type} (step : σ → α → Option (β × σ)) {s₀ : σ} :
    ∀ (as : List α) {h h' : List (α × β)} {s s' : σ}, Run (Asks step) s₀ h s →
      replay step h s as = some (h', s') → Run (Asks step) s₀ h' s'
  | [], h, h', s, s', hrun, hr => by
      rw [replay, Option.some.injEq, Prod.mk.injEq] at hr
      exact hr.1 ▸ hr.2 ▸ hrun
  | a :: as, h, h', s, s', hrun, hr => by
      rw [replay] at hr
      split at hr
      · exact absurd hr (by simp)
      · rename_i b t ht
        exact of_replay step as (.step hrun (show Asks step s (a, b) t from ht)) hr

/-- What a replay is seen to reach, some run reaches. -/
theorem exists_of_replay {α β : Type} (step : σ → α → Option (β × σ)) {s₀ : σ} (as : List α)
    {p : List (α × β) → σ → Prop} [∀ h s, Decidable (p h s)]
    (hr : (replay step [] s₀ as).any (fun r => decide (p r.1 r.2)) = true) :
    ∃ h s, Run (Asks step) s₀ h s ∧ p h s := by
  obtain ⟨r, hreplay, hp⟩ := (Option.any_eq_true _ _).mp hr
  exact ⟨r.1, r.2, of_replay step as .nil hreplay, of_decide_eq_true hp⟩

/-- Runs compose; the later history comes first. -/
theorem append {s s' s'' : σ} {h h' : List ℓ}
    (hrun : Run R s h s') (hrun' : Run R s' h' s'') : Run R s (h' ++ h) s'' := by
  induction hrun' with
  | nil => exact hrun
  | step _ hl ih => exact .step ih hl

/-- A run may be replayed under a weaker step relation. -/
theorem mono {R' : σ → ℓ → σ → Prop} (hR : ∀ t l t', R t l t' → R' t l t')
    {s s' : σ} {h : List ℓ} (hrun : Run R s h s') : Run R' s h s' := by
  induction hrun with
  | nil => exact .nil
  | step _ hl ih => exact .step ih (hR _ _ _ hl)

end Run

end Rucbase.Lib
