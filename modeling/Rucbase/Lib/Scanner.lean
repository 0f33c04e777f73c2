import Mathlib.Tactic.Common

/-!
# Scanners with start conditions

What a scanner generated from rules does. Every rule says how much of the text it matches; the
longest match wins, and of equally long ones the first. The rules depend on the start condition,
which a rule may change. A parser calls the scanner for one token after the other, and may stop at
any token; the start condition stays as it is then.
-/

namespace Rucbase.Lib

/-- What a rule does with the text it matched. -/
inductive Action (σ τ : Type) where
  | skip
  | begin (s : σ)
  | emit (t : τ)

/-- A pattern, as the length of its longest match at the front of a text, and its action. -/
structure Rule (α σ τ : Type) where
  len : List α → Nat
  act : List α → Action σ τ

variable {α σ τ : Type}

/-- The rule that is taken, if one matches. -/
def pick : List (Rule α σ τ) → List α → Option (Rule α σ τ)
  | [], _ => none
  | r :: rules, text =>
      match pick rules text with
      | none => if 0 < r.len text then some r else none
      | some b => if b.len text ≤ r.len text then some r else some b

/-- One match at the front of a text: its length, and what is to be done. A character that no rule
matches is left out. -/
def lexeme (rules : List (Rule α σ τ)) (text : List α) : Nat × Action σ τ :=
  match pick rules text with
  | none => (1, .skip)
  | some r => (r.len text, r.act (text.take (r.len text)))

/-- The calls a parser makes, as long as `asks` says so of the tokens it has: the tokens, and the
start condition at the end. The end of the text is a token, and the last one. -/
def pull (rules : σ → List (Rule α σ τ)) (eof : τ) (asks : List τ → Bool) :
    Nat → List τ → σ → List α → List τ × σ
  | _, seen, s, [] => (seen ++ [eof], s)
  | 0, seen, s, _ :: _ => (seen, s)
  | fuel + 1, seen, s, c :: text =>
      let rest := (c :: text).drop (lexeme (rules s) (c :: text)).1
      match (lexeme (rules s) (c :: text)).2 with
      | .skip => pull rules eof asks fuel seen s rest
      | .begin s' => pull rules eof asks fuel seen s' rest
      | .emit t =>
          if asks (seen ++ [t]) then pull rules eof asks fuel (seen ++ [t]) s rest
          else (seen ++ [t], s)

variable {ruleList : List (Rule α σ τ)} {r : Rule α σ τ} {text : List α}

theorem pick_spec (h : pick ruleList text = some r) : r ∈ ruleList ∧ 0 < r.len text := by
  induction ruleList generalizing r with
  | nil => exact absurd h (by simp [pick])
  | cons a ruleList ih =>
      unfold pick at h
      cases hrest : pick ruleList text with
      | none =>
          rw [hrest] at h
          dsimp only at h
          split at h
          · next hpos =>
              obtain rfl := Option.some.inj h
              exact ⟨by simp, hpos⟩
          · exact absurd h (by simp)
      | some b =>
          rw [hrest] at h
          dsimp only at h
          obtain ⟨hmem, hpos⟩ := ih hrest
          split at h
          · next hle =>
              obtain rfl := Option.some.inj h
              exact ⟨by simp, by omega⟩
          · obtain rfl := Option.some.inj h
            exact ⟨List.mem_cons_of_mem _ hmem, hpos⟩

/-- The scanner gets on. -/
theorem lexeme_pos : 0 < (lexeme ruleList text).1 := by
  unfold lexeme
  cases h : pick ruleList text with
  | none => exact Nat.one_pos
  | some r => exact (pick_spec h).2

/-- What a match may do is what some rule does. -/
theorem lexeme_act (ruleList : List (Rule α σ τ)) (text : List α) :
    (lexeme ruleList text).2 = .skip
    ∨ ∃ r ∈ ruleList, ∃ matched, (lexeme ruleList text).2 = r.act matched := by
  unfold lexeme
  cases h : pick ruleList text with
  | none => exact .inl rfl
  | some r => exact .inr ⟨r, (pick_spec h).1, _, rfl⟩

variable {rules : σ → List (Rule α σ τ)} {eof : τ} {asks : List τ → Bool}

theorem pull_nil {fuel : Nat} {seen : List τ} {s : σ} :
    pull rules eof asks fuel seen s [] = (seen ++ [eof], s) := by
  cases fuel <;> rfl

/-- Rounds that are as many as characters are enough. -/
theorem pull_fuel {fuel fuel' : Nat} {seen : List τ} {s : σ} (h : text.length ≤ fuel)
    (h' : text.length ≤ fuel') :
    pull rules eof asks fuel seen s text = pull rules eof asks fuel' seen s text := by
  induction fuel generalizing fuel' seen s text with
  | zero =>
      obtain rfl := List.eq_nil_of_length_eq_zero (Nat.le_zero.mp h)
      rw [pull_nil, pull_nil]
  | succ fuel ih =>
      cases text with
      | nil => rw [pull_nil, pull_nil]
      | cons c text =>
          cases fuel' with
          | zero => exact absurd h' (by simp)
          | succ fuel' =>
              have hpos : 0 < (lexeme (rules s) (c :: text)).1 := lexeme_pos
              rw [List.length_cons] at h h'
              have hrest : ((c :: text).drop (lexeme (rules s) (c :: text)).1).length ≤ fuel := by
                rw [List.length_drop, List.length_cons]
                omega
              have hrest' : ((c :: text).drop (lexeme (rules s) (c :: text)).1).length ≤ fuel' := by
                rw [List.length_drop, List.length_cons]
                omega
              simp only [pull]
              cases (lexeme (rules s) (c :: text)).2 with
              | skip => exact ih hrest hrest'
              | begin s' => exact ih hrest hrest'
              | emit t =>
                  dsimp only
                  rw [ih hrest hrest']

/-! ## Which rule is taken -/

/-- The longest match is taken, and of equally long ones the first. -/
theorem pick_longest {pre post : List (Rule α σ τ)} (hpos : 0 < r.len text)
    (hpre : ∀ r' ∈ pre, r'.len text < r.len text) (hpost : ∀ r' ∈ post, r'.len text ≤ r.len text) :
    pick (pre ++ r :: post) text = some r := by
  induction pre with
  | nil =>
      rw [List.nil_append, pick]
      cases hrest : pick post text with
      | none => simp only [if_pos hpos]
      | some b => simp only [if_pos (hpost b (pick_spec hrest).1)]
  | cons a pre ih =>
      obtain ⟨ha, hpre⟩ := List.forall_mem_cons.mp hpre
      rw [List.cons_append, pick, ih hpre]
      simp only [if_neg (Nat.not_le.mpr ha)]

theorem lexeme_longest {pre post : List (Rule α σ τ)} (hpos : 0 < r.len text)
    (hpre : ∀ r' ∈ pre, r'.len text < r.len text) (hpost : ∀ r' ∈ post, r'.len text ≤ r.len text) :
    lexeme (pre ++ r :: post) text = (r.len text, r.act (text.take (r.len text))) := by
  unfold lexeme
  rw [pick_longest hpos hpre hpost]

/-- Rules that stand in front are taken, or match less. -/
theorem pick_append {front back : List (Rule α σ τ)} (h : pick (front ++ back) text = some r) :
    r ∈ front ∨ r ∈ back ∧ ∀ r' ∈ front, r'.len text < r.len text := by
  induction front generalizing r with
  | nil => exact .inr ⟨(pick_spec h).1, by simp⟩
  | cons a front ih =>
      rw [List.cons_append, pick] at h
      cases hrest : pick (front ++ back) text with
      | none =>
          rw [hrest] at h
          dsimp only at h
          split at h
          · exact .inl (List.mem_cons.mpr (.inl (Option.some.inj h).symm))
          · cases h
      | some b =>
          rw [hrest] at h
          dsimp only at h
          split at h
          · exact .inl (List.mem_cons.mpr (.inl (Option.some.inj h).symm))
          · next hlt =>
              obtain rfl := Option.some.inj h
              refine (ih hrest).imp (List.mem_cons_of_mem a) fun hback => ⟨hback.1, ?_⟩
              exact List.forall_mem_cons.mpr ⟨Nat.not_le.mp hlt, hback.2⟩

/-- What every token has that a rule emits, all tokens have that the parser gets. `Q` is what is known
of the characters. -/
theorem pull_forall {P : τ → Prop} {Q : α → Prop} (heof : P eof)
    (hemit : ∀ s text t, (∀ c ∈ text, Q c) → (lexeme (rules s) text).2 = .emit t → P t) :
    ∀ (fuel : Nat) (seen : List τ) (s : σ) (text : List α), (∀ c ∈ text, Q c) → (∀ t ∈ seen, P t) →
      ∀ t ∈ (pull rules eof asks fuel seen s text).1, P t
  | fuel, seen, s, [], _, hseen => by
      rw [pull_nil]
      exact List.forall_mem_append.mpr ⟨hseen, List.forall_mem_singleton.mpr heof⟩
  | 0, seen, s, _ :: _, _, hseen => hseen
  | fuel + 1, seen, s, c :: text, htext, hseen => by
      have hrest : ∀ c' ∈ (c :: text).drop (lexeme (rules s) (c :: text)).1, Q c' :=
        fun c' hc' => htext c' (List.mem_of_mem_drop hc')
      simp only [pull]
      cases hact : (lexeme (rules s) (c :: text)).2 with
      | skip => exact pull_forall heof hemit fuel _ _ _ hrest hseen
      | begin s' => exact pull_forall heof hemit fuel _ _ _ hrest hseen
      | emit t =>
          have hseen' : ∀ t' ∈ seen ++ [t], P t' := List.forall_mem_append.mpr
            ⟨hseen, List.forall_mem_singleton.mpr (hemit s _ t htext hact)⟩
          dsimp only
          split
          · exact pull_forall heof hemit fuel _ _ _ hrest hseen'
          · exact hseen'

end Rucbase.Lib
