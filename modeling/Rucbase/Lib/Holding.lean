import Rucbase.Lib.EState

/-!
# Programs that work on what there is

`Sustains I has l x q`: on a state that satisfies `I` and has the items of `l`, the program `x`
leaves a state that satisfies `I`, whether it returns or raises. If it returns, nothing that was
there is gone, and the items that `q` names are there. The rules follow the statements of a program,
and what one statement has produced can be used by all that follow.
-/

namespace Rucbase.Lib

variable {ε σ α β ι : Type}

def Sustains (I : σ → Prop) (has : σ → ι → Prop) (l : List ι) (x : EStateM ε σ α)
    (q : α → List ι) : Prop :=
  ∀ s, I s → (∀ i ∈ l, has s i) →
    match x.run s with
    | .ok a t => I t ∧ (∀ i, has s i → has t i) ∧ ∀ i ∈ q a, has t i
    | .error _ t => I t

namespace Sustains

variable {I : σ → Prop} {has : σ → ι → Prop} {l : List ι} {x y : EStateM ε σ α}
  {f : α → EStateM ε σ β} {q : α → List ι} {r : β → List ι}

/-- A program that returns. -/
theorem of_ok {s t : σ} {a : α} (hx : Sustains I has l x q) (hI : I s) (hl : ∀ i ∈ l, has s i)
    (hrun : x.run s = .ok a t) : I t ∧ (∀ i, has s i → has t i) ∧ ∀ i ∈ q a, has t i := by
  have := hx s hI hl
  rwa [hrun] at this

/-- A program that raises. -/
theorem of_error {s t : σ} {e : ε} (hx : Sustains I has l x q) (hI : I s) (hl : ∀ i ∈ l, has s i)
    (hrun : x.run s = .error e t) : I t := by
  have := hx s hI hl
  rwa [hrun] at this

theorem bind (hx : Sustains I has l x q) (hf : ∀ a, Sustains I has (q a ++ l) (f a) r) :
    Sustains I has l (x >>= f) r := by
  intro s hI hl
  rw [EStateM.run_bind]
  cases hrun : x.run s with
  | error e t => exact hx.of_error hI hl hrun
  | ok a t =>
      obtain ⟨hIt, hkept, hq⟩ := hx.of_ok hI hl hrun
      have hall : ∀ i ∈ q a ++ l, has t i := by
        intro i hi
        exact (List.mem_append.mp hi).elim (hq i) fun h => hkept i (hl i h)
      show match (f a).run t with
        | .ok b u => I u ∧ (∀ i, has s i → has u i) ∧ ∀ i ∈ r b, has u i
        | .error _ u => I u
      cases hrest : (f a).run t with
      | error e u => exact (hf a).of_error hIt hall hrest
      | ok b u =>
          obtain ⟨hIu, hkept', hr⟩ := (hf a).of_ok hIt hall hrest
          exact ⟨hIu, fun i hi => hkept' i (hkept i hi), hr⟩

theorem pure {a : α} (h : ∀ i ∈ q a, i ∈ l) : Sustains I has l (Pure.pure a : EStateM ε σ α) q :=
  fun _ hI hl => ⟨hI, fun _ hi => hi, fun i hi => hl i (h i hi)⟩

theorem throw {e : ε} : Sustains I has l (MonadExcept.throw e : EStateM ε σ α) q := fun _ hI _ => hI

theorem get_bind {g : σ → EStateM ε σ β} (hg : ∀ s, Sustains I has l (g s) r) :
    Sustains I has l (get >>= g) r :=
  fun s => hg s s

theorem modify {g : σ → σ} {q : PUnit → List ι}
    (hg : ∀ s, I s → (∀ i ∈ l, has s i) →
      I (g s) ∧ (∀ i, has s i → has (g s) i) ∧ ∀ i ∈ q ⟨⟩, has (g s) i) :
    Sustains I has l (modify g : EStateM ε σ PUnit) q :=
  fun s hI hl => hg s hI hl

theorem ite {c : Prop} [Decidable c] (h : c → Sustains I has l x q)
    (h' : ¬ c → Sustains I has l y q) : Sustains I has l (if c then x else y) q := by
  by_cases hc : c
  · rw [if_pos hc]
    exact h hc
  · rw [if_neg hc]
    exact h' hc

theorem onlyIf {c : Prop} [Decidable c] {x : EStateM ε σ PUnit}
    (h : Sustains I has l x fun _ => []) : Sustains I has l (Lib.onlyIf c x) fun _ => [] :=
  ite (fun _ => h) fun _ => pure (by simp)

theorem forM {γ : Type} {g : γ → EStateM ε σ PUnit} (h : ∀ c, Sustains I has l (g c) fun _ => []) :
    ∀ cs : List γ, Sustains I has l (ForM.forM cs g) fun _ => []
  | [] => pure (by simp)
  | c :: cs => by
      rw [List.forM_cons]
      exact (h c).bind fun _ => forM h cs

end Sustains

end Rucbase.Lib
