import Mathlib.Tactic.Common

/-!
# Running `EStateM` computations

`EStateM ε σ α` models code that mutates a state and may throw: an error carries the
state reached when it was thrown. These lemmas run a `do` block one statement at a
time, forwards (`bind_ok`, and the equations for a leading `get`, `set`, `modify`) and
backwards (`bind_eq_ok`, `bind_eq_error`: from the outcome of a block to the outcomes
of its parts).

`Within x y` says that `y` returns whatever `x` returns. It is how a loop with a bound on its
rounds compares to one with a larger bound. `Follows` compares two programs over different
states: what one returns or raises, the other returns or raises too, and the states stay related.
`Raises E x` bounds what `x` can throw, `Leaves f x` says what it leaves alone, `Ends s x P E` what
holds when it returns and when it throws, started in `s`, and `Upholds I E x` what holds of the state
however it ends.
-/

namespace Rucbase.Lib

variable {ε σ α β : Type}

/-- A statement that returns hands its state to the next. -/
theorem bind_ok {x : EStateM ε σ α} {f : α → EStateM ε σ β} {s t : σ} {a : α}
    (h : x.run s = .ok a t) : (x >>= f).run s = (f a).run t := by
  rw [EStateM.run_bind, h]

/-- A block returned: so did each statement. -/
theorem bind_eq_ok {x : EStateM ε σ α} {f : α → EStateM ε σ β} {s t : σ} {b : β} :
    (x >>= f).run s = .ok b t ↔ ∃ a u, x.run s = .ok a u ∧ (f a).run u = .ok b t := by
  rw [EStateM.run_bind]
  cases x.run s with
  | ok a u => simp
  | error e u => simp

/-- A block whose last statement only says what is returned. -/
theorem bind_pure_eq_ok {x : EStateM ε σ α} {g : α → β} {s t : σ} {b : β} :
    (x >>= fun a => pure (g a)).run s = .ok b t ↔ ∃ a, x.run s = .ok a t ∧ g a = b := by
  rw [bind_eq_ok]
  constructor
  · rintro ⟨a, u, hx, hg⟩
    rw [EStateM.run_pure, EStateM.Result.ok.injEq] at hg
    obtain ⟨hb, rfl⟩ := hg
    exact ⟨a, hx, hb⟩
  · rintro ⟨a, hx, rfl⟩
    exact ⟨a, t, hx, rfl⟩

/-- A block threw: its first statement did, or the rest did. -/
theorem bind_eq_error {x : EStateM ε σ α} {f : α → EStateM ε σ β} {s t : σ} {e : ε} :
    (x >>= f).run s = .error e t ↔
      x.run s = .error e t ∨ ∃ a u, x.run s = .ok a u ∧ (f a).run u = .error e t := by
  rw [EStateM.run_bind]
  cases x.run s with
  | ok a u => simp
  | error e' u => simp

@[simp] theorem run_throw_any (e : ε) (s : σ) :
    (throw e : EStateM ε σ α).run s = .error e s := rfl

@[simp] theorem run_get_bind (f : σ → EStateM ε σ β) (s : σ) :
    (get >>= f).run s = (f s).run s := rfl

@[simp] theorem run_set_bind (t : σ) (f : PUnit → EStateM ε σ β) (s : σ) :
    (set t >>= f).run s = (f ⟨⟩).run t := rfl

@[simp] theorem run_modify_bind (g : σ → σ) (f : PUnit → EStateM ε σ β) (s : σ) :
    (modify g >>= f).run s = (f ⟨⟩).run (g s) := rfl

@[simp] theorem run_pure_bind (a : α) (f : α → EStateM ε σ β) (s : σ) :
    ((pure a : EStateM ε σ α) >>= f).run s = (f a).run s := rfl

@[simp] theorem run_throw_bind (e : ε) (f : α → EStateM ε σ β) (s : σ) :
    ((throw e : EStateM ε σ α) >>= f).run s = .error e s := rfl

/-- `if (c) stmt;` -/
def onlyIf (c : Prop) [Decidable c] (x : EStateM ε σ PUnit) : EStateM ε σ PUnit :=
  if c then x else pure ⟨⟩

theorem onlyIf_pos {c : Prop} [Decidable c] {x : EStateM ε σ PUnit} (h : c) : onlyIf c x = x :=
  if_pos h

theorem onlyIf_neg {c : Prop} [Decidable c] {x : EStateM ε σ PUnit} (h : ¬ c) :
    onlyIf c x = pure ⟨⟩ := if_neg h

/-- **The loop rule.** What every round keeps, the whole loop keeps. -/
theorem forM_invariant {I : σ → Prop} {f : α → EStateM ε σ PUnit} :
    ∀ (l : List α), (∀ a ∈ l, ∀ s t, I s → (f a).run s = .ok ⟨⟩ t → I t) →
      ∀ {s t : σ}, I s → (forM l f).run s = .ok ⟨⟩ t → I t
  | [], _, s, t, hI, h => by
      rw [List.forM_nil, EStateM.run_pure, EStateM.Result.ok.injEq] at h
      exact h.2 ▸ hI
  | a :: l, hf, s, t, hI, h => by
      rw [List.forM_cons] at h
      obtain ⟨_, u, h1, h2⟩ := bind_eq_ok.mp h
      exact forM_invariant l (fun b hb => hf b (List.mem_cons_of_mem _ hb))
        (hf a List.mem_cons_self s u hI h1) h2

/-- What every round keeps, also when it throws, a loop that throws keeps. -/
theorem forM_invariant_error {I : σ → Prop} {f : α → EStateM ε σ PUnit} {e : ε} :
    ∀ (l : List α), (∀ a ∈ l, ∀ s t, I s → (f a).run s = .ok ⟨⟩ t → I t) →
      (∀ a ∈ l, ∀ s t, I s → (f a).run s = .error e t → I t) →
      ∀ {s t : σ}, I s → (forM l f).run s = .error e t → I t
  | [], _, _, s, t, _, h => by
      rw [List.forM_nil, EStateM.run_pure] at h
      exact absurd h (by simp)
  | a :: l, hok, herr, s, t, hI, h => by
      rw [List.forM_cons] at h
      rcases bind_eq_error.mp h with h1 | ⟨_, u, h1, h2⟩
      · exact herr a List.mem_cons_self s t hI h1
      · exact forM_invariant_error l (fun b hb => hok b (List.mem_cons_of_mem _ hb))
          (fun b hb => herr b (List.mem_cons_of_mem _ hb)) (hok a List.mem_cons_self s u hI h1) h2

/-- **A loop that settles one item each round**: what a round establishes for its item, and the
other rounds keep, holds of every item in the end. -/
theorem forM_establishes {I : σ → Prop} {P : α → σ → Prop} {f : α → EStateM ε σ PUnit} :
    ∀ (l : List α), (∀ a ∈ l, ∀ s t, I s → (f a).run s = .ok ⟨⟩ t → I t ∧ P a t) →
      (∀ a ∈ l, ∀ b s t, I s → P b s → (f a).run s = .ok ⟨⟩ t → P b t) →
      ∀ {s t : σ}, I s → (forM l f).run s = .ok ⟨⟩ t → ∀ a ∈ l, P a t
  | [], _, _, s, t, _, _, a, ha => absurd ha (by simp)
  | b :: l, hI, hkeep, s, t, hs, h, a, ha => by
      rw [List.forM_cons] at h
      obtain ⟨_, u, h1, h2⟩ := bind_eq_ok.mp h
      have hu := hI b List.mem_cons_self s u hs h1
      rcases List.mem_cons.mp ha with rfl | ha
      · refine (forM_invariant (I := fun v => I v ∧ P a v) l ?_ hu h2).2
        intro c hc v w hv hw
        exact ⟨(hI c (List.mem_cons_of_mem _ hc) v w hv.1 hw).1,
          hkeep c (List.mem_cons_of_mem _ hc) a v w hv.1 hv.2 hw⟩
      · exact forM_establishes l (fun c hc => hI c (List.mem_cons_of_mem _ hc))
          (fun c hc => hkeep c (List.mem_cons_of_mem _ hc)) hu.1 h2 a ha

/-- **A loop whose rounds return returns.** -/
theorem forM_returns {I : σ → Prop} {f : α → EStateM ε σ PUnit} :
    ∀ (l : List α), (∀ a ∈ l, ∀ s, I s → ∃ t, (f a).run s = .ok ⟨⟩ t ∧ I t) →
      ∀ {s : σ}, I s → ∃ t, (forM l f).run s = .ok ⟨⟩ t
  | [], _, s, _ => ⟨s, rfl⟩
  | a :: l, hf, s, hs => by
      obtain ⟨u, hu, hI⟩ := hf a List.mem_cons_self s hs
      obtain ⟨t, ht⟩ := forM_returns l (fun b hb => hf b (List.mem_cons_of_mem _ hb)) hI
      refine ⟨t, ?_⟩
      rw [List.forM_cons]
      exact bind_eq_ok.mpr ⟨⟨⟩, u, hu, ht⟩

/-! ## More rounds -/

def Within (x y : EStateM ε σ α) : Prop := ∀ s a t, x.run s = .ok a t → y.run s = .ok a t

namespace Within

variable {x y : EStateM ε σ α} {f g : α → EStateM ε σ β}

theorem refl : Within x x := fun _ _ _ h => h

theorem throw (e : ε) : Within (MonadExcept.throw e) x := fun _ _ _ h => by simp at h

theorem bind (hx : Within x y) (hf : ∀ a, Within (f a) (g a)) : Within (x >>= f) (y >>= g) := by
  intro s b t h
  obtain ⟨a, u, h1, h2⟩ := bind_eq_ok.mp h
  exact bind_eq_ok.mpr ⟨a, u, hx s a u h1, hf a u b t h2⟩

theorem ite {c : Prop} [Decidable c] {x' y' : EStateM ε σ α} (h : Within x y) (h' : Within x' y') :
    Within (if c then x else x') (if c then y else y') := by
  by_cases hc : c
  · rwa [if_pos hc, if_pos hc]
  · rwa [if_neg hc, if_neg hc]

theorem onlyIf {c : Prop} [Decidable c] {x y : EStateM ε σ PUnit} (h : Within x y) :
    Within (Lib.onlyIf c x) (Lib.onlyIf c y) := ite h refl

end Within

/-- A family of computations, each within the next. -/
theorem within_of_le {x : Nat → EStateM ε σ α} (hx : ∀ n, Within (x n) (x (n + 1))) {m n : Nat}
    (h : m ≤ n) : Within (x m) (x n) := by
  induction h with
  | refl => exact .refl
  | step _ ih => exact fun s a t hrun => hx _ s a t (ih s a t hrun)

/-! ## What a program can throw -/

def Raises (E : ε → Prop) (x : EStateM ε σ α) : Prop := ∀ s e t, x.run s = .error e t → E e

namespace Raises

variable {E : ε → Prop} {x : EStateM ε σ α} {f : α → EStateM ε σ β}

theorem bind (hx : Raises E x) (hf : ∀ a, Raises E (f a)) : Raises E (x >>= f) := by
  intro s e t h
  rcases bind_eq_error.mp h with h1 | ⟨a, u, _, h2⟩
  · exact hx s e t h1
  · exact hf a u e t h2

theorem pure {a : α} : Raises E (Pure.pure a : EStateM ε σ α) := fun _ _ _ h => by simp at h

theorem throw {e : ε} (he : E e) : Raises E (MonadExcept.throw e : EStateM ε σ α) := by
  intro s e' t h
  rw [run_throw_any, EStateM.Result.error.injEq] at h
  exact h.1 ▸ he

theorem get_bind {g : σ → EStateM ε σ β} (hg : ∀ s, Raises E (g s)) : Raises E (get >>= g) :=
  fun s => hg s s

theorem set {s : σ} : Raises E (MonadStateOf.set s : EStateM ε σ PUnit) := by
  intro _ _ _ h
  exact absurd h (by simp [EStateM.run_set])

theorem modify {g : σ → σ} : Raises E (modify g : EStateM ε σ PUnit) := by
  intro _ _ _ h
  exact absurd h (by simp)

theorem onlyIf {c : Prop} [Decidable c] {x : EStateM ε σ PUnit} (hx : Raises E x) :
    Raises E (Lib.onlyIf c x) := by
  unfold Lib.onlyIf
  by_cases hc : c
  · rwa [if_pos hc]
  · rw [if_neg hc]
    exact pure

theorem forM {f : α → EStateM ε σ PUnit} (hf : ∀ a, Raises E (f a)) :
    ∀ l : List α, Raises E (forM l f)
  | [] => pure
  | a :: l => by
      rw [List.forM_cons]
      exact (hf a).bind fun _ => forM hf l

end Raises

/-! ## How a run ends -/

/-- Started in `s`, `x` returns with `P` or throws with `E`. -/
structure Ends (s : σ) (x : EStateM ε σ α) (P : α → σ → Prop) (E : ε → σ → Prop) : Prop where
  returns : ∀ a t, x.run s = .ok a t → P a t
  throws : ∀ e t, x.run s = .error e t → E e t

namespace Ends

variable {s t : σ} {x : EStateM ε σ α} {f : α → EStateM ε σ β} {P : α → σ → Prop} {E : ε → σ → Prop}

theorem of_ok {a : α} (h : x.run s = .ok a t) (hP : P a t) : Ends s x P E := by
  refine ⟨fun a' t' h' => ?_, fun e t' h' => ?_⟩
  · rw [h] at h'
    obtain ⟨rfl, rfl⟩ := EStateM.Result.ok.inj h'
    exact hP
  · rw [h] at h'
    cases h'

theorem of_error {e : ε} (h : x.run s = .error e t) (hE : E e t) : Ends s x P E := by
  refine ⟨fun a t' h' => ?_, fun e' t' h' => ?_⟩
  · rw [h] at h'
    cases h'
  · rw [h] at h'
    obtain ⟨rfl, rfl⟩ := EStateM.Result.error.inj h'
    exact hE

theorem imp {P' : α → σ → Prop} {E' : ε → σ → Prop} (h : Ends s x P E)
    (hP : ∀ a t, P a t → P' a t) (hE : ∀ e t, E e t → E' e t) : Ends s x P' E' :=
  ⟨fun a t hrun => hP a t (h.returns a t hrun), fun e t hrun => hE e t (h.throws e t hrun)⟩

/-- **The rule for a statement and the rest of the block.** -/
theorem bind {Q : β → σ → Prop} {F : ε → σ → Prop} (hx : Ends s x P E)
    (hf : ∀ a t, P a t → Ends t (f a) Q F) (hE : ∀ e t, E e t → F e t) :
    Ends s (x >>= f) Q F := by
  refine ⟨fun b t hrun => ?_, fun e t hrun => ?_⟩
  · obtain ⟨a, u, h1, h2⟩ := bind_eq_ok.mp hrun
    exact (hf a u (hx.returns a u h1)).returns b t h2
  · rcases bind_eq_error.mp hrun with h1 | ⟨a, u, h1, h2⟩
    · exact hE e t (hx.throws e t h1)
    · exact (hf a u (hx.returns a u h1)).throws e t h2

/-- **A program on a part of the state**: `x` runs `y`, and `back` puts its state where it belongs. -/
theorem lift {σ' : Type} {y : EStateM ε σ' α} {s' : σ'} {back : σ' → σ}
    (hok : ∀ {a t'}, y.run s' = .ok a t' → x.run s = .ok a (back t'))
    (herror : ∀ {e t'}, y.run s' = .error e t' → x.run s = .error e (back t'))
    (hy : Ends s' y (fun a t' => P a (back t')) fun e t' => E e (back t')) : Ends s x P E := by
  cases h : y.run s' with
  | ok a t' => exact .of_ok (hok h) (hy.returns a t' h)
  | error e t' => exact .of_error (herror h) (hy.throws e t' h)

/-- Statements that only read or change the state are steps of the run. -/
theorem of_run {y : EStateM ε σ α} (h : x.run s = y.run t) (hy : Ends t y P E) : Ends s x P E := by
  refine ⟨fun a u hrun => ?_, fun e u hrun => ?_⟩
  · rw [h] at hrun
    exact hy.returns a u hrun
  · rw [h] at hrun
    exact hy.throws e u hrun

end Ends

/-! ## What a program keeps, however it ends -/

/-- From a state with `I`, `x` comes to one, whether it returns or throws; and it throws `E` only. -/
structure Upholds (I : σ → Prop) (E : ε → Prop) (x : EStateM ε σ α) : Prop where
  ends : ∀ s, I s → Ends s x (fun _ => I) fun e t => I t ∧ E e

namespace Upholds

variable {I : σ → Prop} {E : ε → Prop} {x : EStateM ε σ α} {f : α → EStateM ε σ β}

theorem pure (a : α) : Upholds I E (Pure.pure a : EStateM ε σ α) :=
  ⟨fun _ hs => .of_ok rfl hs⟩

theorem throw {e : ε} (he : E e) : Upholds I E (MonadExcept.throw e : EStateM ε σ α) :=
  ⟨fun _ hs => .of_error rfl ⟨hs, he⟩⟩

theorem bind (hx : Upholds I E x) (hf : ∀ a, Upholds I E (f a)) : Upholds I E (x >>= f) :=
  ⟨fun s hs => (hx.ends s hs).bind (fun a t ht => (hf a).ends t ht) fun _ _ h => h⟩

/-- What is read has `I`. -/
theorem get_bind {g : σ → EStateM ε σ β} (hg : ∀ s, I s → Upholds I E (g s)) :
    Upholds I E (get >>= g) :=
  ⟨fun s hs => .of_run (run_get_bind g s) ((hg s hs).ends s hs)⟩

theorem modify {g : σ → σ} (hg : ∀ s, I s → I (g s)) :
    Upholds I E (modify g : EStateM ε σ PUnit) := ⟨fun s hs => .of_ok rfl (hg s hs)⟩

theorem set {t : σ} (ht : I t) : Upholds I E (MonadStateOf.set t : EStateM ε σ PUnit) :=
  modify fun _ _ => ht

theorem set_bind {t : σ} {g : PUnit → EStateM ε σ β} (ht : I t) (hg : Upholds I E (g ⟨⟩)) :
    Upholds I E (MonadStateOf.set t >>= g) := (set ht).bind fun _ => hg

theorem ite {c : Prop} [Decidable c] {y : EStateM ε σ α} (hx : Upholds I E x)
    (hy : Upholds I E y) : Upholds I E (if c then x else y) := by
  by_cases hc : c
  · rwa [if_pos hc]
  · rwa [if_neg hc]

theorem onlyIf {c : Prop} [Decidable c] {x : EStateM ε σ PUnit} (hx : Upholds I E x) :
    Upholds I E (Lib.onlyIf c x) := ite hx (pure _)

theorem forM {f : α → EStateM ε σ PUnit} (hf : ∀ a, Upholds I E (f a)) :
    ∀ l : List α, Upholds I E (forM l f)
  | [] => pure _
  | a :: l => by
      rw [List.forM_cons]
      exact (hf a).bind fun _ => forM hf l

theorem imp {E' : ε → Prop} (hx : Upholds I E x) (hE : ∀ e, E e → E' e) : Upholds I E' x :=
  ⟨fun s hs => (hx.ends s hs).imp (fun _ _ h => h) fun e _ h => h.imp_right (hE e)⟩

end Upholds

/-! ## What a program leaves as it was -/

/-- Whenever `x` returns, the state looks through `f` as it did before. -/
def Leaves {γ : Type} (f : σ → γ) (x : EStateM ε σ α) : Prop :=
  ∀ s a t, x.run s = .ok a t → f t = f s

namespace Leaves

variable {γ : Type} {f : σ → γ} {x : EStateM ε σ α} {g : α → EStateM ε σ β}

theorem bind (hx : Leaves f x) (hg : ∀ a, Leaves f (g a)) : Leaves f (x >>= g) := by
  intro s b t h
  obtain ⟨a, u, h1, h2⟩ := bind_eq_ok.mp h
  exact (hg a u b t h2).trans (hx s a u h1)

theorem pure {a : α} : Leaves f (Pure.pure a : EStateM ε σ α) := by
  intro s b t h
  rw [EStateM.run_pure, EStateM.Result.ok.injEq] at h
  rw [h.2]

theorem get_bind {g : σ → EStateM ε σ β} (hg : ∀ s, Leaves f (g s)) : Leaves f (get >>= g) :=
  fun s => hg s s

theorem modify {h : σ → σ} (hh : ∀ s, f (h s) = f s) : Leaves f (modify h : EStateM ε σ PUnit) := by
  intro s a t hr
  rw [EStateM.run_modify, EStateM.Result.ok.injEq] at hr
  rw [← hr.2, hh]

theorem onlyIf {c : Prop} [Decidable c] {x : EStateM ε σ PUnit} (hx : Leaves f x) :
    Leaves f (Lib.onlyIf c x) := by
  unfold Lib.onlyIf
  by_cases hc : c
  · rwa [if_pos hc]
  · rw [if_neg hc]
    exact pure

end Leaves

/-- What an `Except` raises, it raises in any state. -/
theorem run_ofExcept_bind (r : Except ε α) (g : α → EStateM ε σ β) (s : σ) :
    (MonadExcept.ofExcept r >>= g : EStateM ε σ β).run s
      = match r with
        | .error e => .error e s
        | .ok a => (g a).run s := by
  cases r <;> rfl

/-- Where `x` raises one of the errors `E`, it has left `f` of the state alone. -/
def Spares {γ : Type} (E : ε → Prop) (f : σ → γ) (x : EStateM ε σ α) : Prop :=
  ∀ s e t, x.run s = .error e t → E e → f t = f s

namespace Spares

variable {γ : Type} {E : ε → Prop} {f : σ → γ} {x : EStateM ε σ α} {g : α → EStateM ε σ β}

/-- Nothing may be changed before the last step that can raise. -/
theorem bind (hx : Spares E f x) (hleaves : Leaves f x) (hg : ∀ a, Spares E f (g a)) :
    Spares E f (x >>= g) := by
  intro s e t h he
  rcases bind_eq_error.mp h with hfirst | ⟨a, u, hfirst, hrest⟩
  · exact hx s e t hfirst he
  · exact (hg a u e t hrest he).trans (hleaves s a u hfirst)

theorem of_raises {E' : ε → Prop} (h : Raises E' x) (hE : ∀ e, E' e → ¬ E e) : Spares E f x :=
  fun s e t hr he => absurd he (hE e (h s e t hr))

theorem throw (e : ε) : Spares E f (MonadExcept.throw e : EStateM ε σ α) := by
  intro s e' t h _
  rw [run_throw_any, EStateM.Result.error.injEq] at h
  rw [h.2]

theorem get_bind {g : σ → EStateM ε σ β} (hg : ∀ s, Spares E f (g s)) : Spares E f (get >>= g) :=
  fun s => hg s s

theorem ofExcept_bind {r : Except ε α} (hg : ∀ a, Spares E f (g a)) :
    Spares E f (MonadExcept.ofExcept r >>= g) := by
  intro s e t h he
  rw [run_ofExcept_bind] at h
  cases r with
  | error e' =>
      rw [(EStateM.Result.error.inj h).2]
  | ok a => exact hg a s e t h he

end Spares

/-! ## Side by side -/

/-- Result `r'` follows `r`: both returned, with values and states related by `Q`, or both raised
the same. -/
def Follows {τ : Type} (Q : α → β → σ → τ → Prop) (r : EStateM.Result ε σ α)
    (r' : EStateM.Result ε τ β) : Prop :=
  match r, r' with
  | .ok v a, .ok w s => Q v w a s
  | .error e _, .error e' _ => e = e'
  | _, _ => False

namespace Follows

variable {τ α' β' : Type} {Q : α → β → σ → τ → Prop} {R : α' → β' → σ → τ → Prop}

theorem of_ok {r : EStateM.Result ε σ α} {r' : EStateM.Result ε τ β} {v : α} {w : β} {a : σ}
    {s : τ} (h : r = .ok v a) (h' : r' = .ok w s) (hQ : Q v w a s) : Follows Q r r' := by
  rw [h, h']
  exact hQ

theorem ok {r : EStateM.Result ε σ α} {r' : EStateM.Result ε τ β} (h : Follows Q r r')
    {v : α} {a : σ} (hr : r = .ok v a) : ∃ w s, r' = .ok w s ∧ Q v w a s := by
  subst hr
  cases r' with
  | ok w s => exact ⟨w, s, rfl, h⟩
  | error e s => exact h.elim

theorem error {r : EStateM.Result ε σ α} {r' : EStateM.Result ε τ β} (h : Follows Q r r')
    {e : ε} {a : σ} (hr : r = .error e a) : ∃ s, r' = .error e s := by
  subst hr
  cases r' with
  | ok w s => exact h.elim
  | error e' s =>
      have he : e = e' := h
      exact ⟨s, by rw [he]⟩

theorem imp {r : EStateM.Result ε σ α} {r' : EStateM.Result ε τ β} {Q' : α → β → σ → τ → Prop}
    (h : Follows Q r r') (hQ : ∀ v w a s, Q v w a s → Q' v w a s) : Follows Q' r r' := by
  cases r with
  | ok v a =>
      obtain ⟨w, s, rfl, hq⟩ := h.ok rfl
      exact hQ v w a s hq
  | error e a =>
      obtain ⟨s, rfl⟩ := h.error rfl
      exact rfl

/-- One statement after the other. -/
theorem bind {x : EStateM ε σ α} {y : EStateM ε τ β} {f : α → EStateM ε σ α'}
    {g : β → EStateM ε τ β'} {a : σ} {s : τ} (h : Follows Q (x.run a) (y.run s))
    (hf : ∀ v w a' s', Q v w a' s' → Follows R ((f v).run a') ((g w).run s')) :
    Follows R ((x >>= f).run a) ((y >>= g).run s) := by
  rw [EStateM.run_bind, EStateM.run_bind]
  cases hx : x.run a with
  | ok v a' =>
      obtain ⟨w, s', hy, hQ⟩ := h.ok hx
      rw [hy]
      exact hf v w a' s' hQ
  | error e a' =>
      obtain ⟨s', hy⟩ := h.error hx
      rw [hy]
      exact rfl

/-- Both programs take the branch, or neither does, and the relation `I` between their states is
kept. -/
theorem onlyIf_bind {I : σ → τ → Prop} {c : Prop} [Decidable c] {x : EStateM ε σ PUnit}
    {y : EStateM ε τ PUnit} {f : PUnit → EStateM ε σ α'} {g : PUnit → EStateM ε τ β'} {a : σ} {s : τ}
    (hI : I a s) (hx : c → Follows (fun _ _ => I) (x.run a) (y.run s))
    (hf : ∀ a' s', I a' s' → Follows R ((f ⟨⟩).run a') ((g ⟨⟩).run s')) :
    Follows R ((onlyIf c x >>= f).run a) ((onlyIf c y >>= g).run s) := by
  refine Follows.bind (Q := fun _ _ => I) ?_ fun _ _ a' s' h => hf a' s' h
  by_cases hc : c
  · rw [onlyIf_pos hc, onlyIf_pos hc]
    exact hx hc
  · rw [onlyIf_neg hc, onlyIf_neg hc]
    exact .of_ok rfl rfl hI

end Follows

end Rucbase.Lib
