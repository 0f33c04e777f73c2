import Rucbase.Lib.EState

/-!
# A program with and without a bound on its resources

`free : σ → σ` lifts the bound in a state, `lost` is the error of a program that runs into it.
`Lockstep free lost x` says that `x` does under the bound what it does without, as far as it does
not run into it. The rules follow the statements of a program; a `get` needs that what comes after
does not read the bound.
-/

namespace Rucbase.Lib

variable {ε σ α β : Type}

/-- The same outcome, with the bound lifted. -/
def lift (free : σ → σ) : EStateM.Result ε σ α → EStateM.Result ε σ α
  | .ok a t => .ok a (free t)
  | .error e t => .error e (free t)

structure Lockstep (free : σ → σ) (lost : ε) (x : EStateM ε σ α) : Prop where
  agrees : ∀ s, (∃ t, x.run s = .error lost t) ∨ x.run (free s) = lift free (x.run s)
  /-- Without the bound it does not run into it, and there is none afterwards. -/
  never : ∀ s t, x.run (free s) ≠ .error lost t
  lifted : ∀ s a t, x.run (free s) = .ok a t → free t = t

namespace Lockstep

variable {free : σ → σ} {lost : ε} {x y : EStateM ε σ α} {f : α → EStateM ε σ β}

/-- Without the bound the program returns, and there is none afterwards, or it raises something
else. -/
theorem of_cases
    (h : ∀ s, (∃ t, x.run s = .error lost t) ∨ x.run (free s) = lift free (x.run s))
    (hfree : ∀ s, (∃ a t, x.run (free s) = .ok a t ∧ free t = t)
      ∨ ∃ e t, x.run (free s) = .error e t ∧ e ≠ lost) : Lockstep free lost x where
  agrees := h
  never := by
    intro s t ht
    rcases hfree s with ⟨a, u, hu, _⟩ | ⟨e, u, hu, he⟩
    · exact absurd (hu.symm.trans ht) (by simp)
    · exact he (EStateM.Result.error.inj (hu.symm.trans ht)).1
  lifted := by
    intro s a t ht
    rcases hfree s with ⟨b, u, hu, hlift⟩ | ⟨e, u, hu, _⟩
    · obtain ⟨_, rfl⟩ := EStateM.Result.ok.inj (hu.symm.trans ht)
      exact hlift
    · exact absurd (hu.symm.trans ht) (by simp)

theorem bind (hx : Lockstep free lost x) (hf : ∀ a, Lockstep free lost (f a)) :
    Lockstep free lost (x >>= f) where
  agrees := by
    intro s
    rcases hx.agrees s with ⟨t, ht⟩ | heq
    · exact .inl ⟨t, bind_eq_error.mpr (.inl ht)⟩
    · rw [EStateM.run_bind, EStateM.run_bind, heq]
      cases x.run s with
      | ok a t => exact (hf a).agrees t
      | error e t => exact .inr rfl
  never := by
    intro s t h
    rcases bind_eq_error.mp h with h | ⟨a, u, hu, h⟩
    · exact hx.never s t h
    · rw [← hx.lifted s a u hu] at h
      exact (hf a).never u t h
  lifted := by
    intro s b t h
    obtain ⟨a, u, hu, h⟩ := bind_eq_ok.mp h
    rw [← hx.lifted s a u hu] at h
    exact (hf a).lifted u b t h

theorem throw {e : ε} (he : e ≠ lost) :
    Lockstep free lost (MonadExcept.throw e : EStateM ε σ α) where
  agrees := fun _ => .inr rfl
  never := by
    intro s t h
    exact he (EStateM.Result.error.inj h).1
  lifted := by
    intro s a t h
    exact absurd h (by simp)

/-- What comes after a `get` does not read the bound. -/
theorem get_bind {g : σ → EStateM ε σ β} (hg : ∀ s, Lockstep free lost (g s))
    (hfree : ∀ s, g (free s) = g s) : Lockstep free lost (get >>= g) where
  agrees := by
    intro s
    rw [run_get_bind, run_get_bind, hfree]
    exact (hg s).agrees s
  never := by
    intro s t h
    rw [run_get_bind] at h
    exact (hg (free s)).never s t h
  lifted := by
    intro s a t h
    rw [run_get_bind] at h
    exact (hg (free s)).lifted s a t h

theorem ite {c : Prop} [Decidable c] (h : Lockstep free lost x) (h' : Lockstep free lost y) :
    Lockstep free lost (if c then x else y) := by
  by_cases hc : c
  · rwa [if_pos hc]
  · rwa [if_neg hc]

section

variable (hidem : ∀ s, free (free s) = free s)

include hidem

theorem pure {a : α} : Lockstep free lost (Pure.pure a : EStateM ε σ α) where
  agrees := fun _ => .inr rfl
  never := by
    intro s t h
    exact absurd h (by simp)
  lifted := by
    intro s b t h
    obtain ⟨_, rfl⟩ := EStateM.Result.ok.inj h
    exact hidem s

/-- A change of the state that neither reads nor writes the bound. -/
theorem modify {h : σ → σ} (hh : ∀ s, h (free s) = free (h s)) :
    Lockstep free lost (modify h : EStateM ε σ PUnit) where
  agrees := by
    intro s
    refine .inr ?_
    rw [EStateM.run_modify, EStateM.run_modify, hh]
    rfl
  never := by
    intro s t hr
    exact absurd hr (by simp)
  lifted := by
    intro s a t hr
    rw [EStateM.run_modify, EStateM.Result.ok.injEq, hh] at hr
    rw [← hr.2, hidem]

theorem onlyIf {c : Prop} [Decidable c] {x : EStateM ε σ PUnit} (hx : Lockstep free lost x) :
    Lockstep free lost (Lib.onlyIf c x) := ite hx (pure hidem)

theorem forM {γ : Type} {g : γ → EStateM ε σ PUnit} (hg : ∀ i, Lockstep free lost (g i)) :
    ∀ l : List γ, Lockstep free lost (ForM.forM l g)
  | [] => pure hidem
  | i :: l => by
      rw [List.forM_cons]
      exact (hg i).bind fun _ => forM hg l

end

/-- **The bound makes a difference** if and only if the program runs into it. -/
theorem lost_iff (hx : Lockstep free lost x) {s : σ} :
    (∃ t, x.run s = .error lost t) ↔ x.run (free s) ≠ lift free (x.run s) := by
  constructor
  · rintro ⟨t, ht⟩ heq
    rw [ht] at heq
    exact hx.never s _ heq
  · exact fun hne => (hx.agrees s).resolve_right hne

end Lockstep

end Rucbase.Lib
