import Mathlib.Tactic.Common

/-!
# Chains threaded through memory

`Chain link stop a l`: following `link` from `a` visits the nodes of `l` in order and ends at
`stop`. Only the links of the nodes in `l` matter, which is what makes a change of memory
elsewhere harmless.
-/

namespace Rucbase.Lib

variable {ν : Type} {link link' : ν → Option ν} {stop a b : ν} {l : List ν}

inductive Chain (link : ν → Option ν) (stop : ν) : ν → List ν → Prop where
  | nil : Chain link stop stop []
  | cons {a b : ν} {l : List ν} : a ≠ stop → link a = some b → Chain link stop b l →
      Chain link stop a (a :: l)

namespace Chain

/-- A chain depends on the links of its own nodes only. -/
theorem congr (h : Chain link stop a l) (hl : ∀ x ∈ l, link' x = link x) :
    Chain link' stop a l := by
  induction h with
  | nil => exact .nil
  | @cons a b l hne hab _ ih =>
      have hrest := ih (fun x hx => hl x (List.mem_cons_of_mem _ hx))
      exact .cons hne ((hl a List.mem_cons_self).trans hab) hrest

theorem of_stop (h : Chain link stop stop l) : l = [] := by
  cases h with
  | nil => rfl
  | cons hne _ _ => exact absurd rfl hne

/-- A chain that does not start at its end has a first node. -/
theorem of_ne (h : Chain link stop a l) (hne : a ≠ stop) :
    ∃ b l', l = a :: l' ∧ link a = some b ∧ Chain link stop b l' := by
  cases h with
  | nil => exact absurd rfl hne
  | cons _ hab hrest => exact ⟨_, _, rfl, hab, hrest⟩

theorem of_cons (h : Chain link stop a (b :: l)) :
    a = b ∧ ∃ c, link b = some c ∧ Chain link stop c l := by
  cases h with
  | cons _ hab hrest => exact ⟨rfl, _, hab, hrest⟩

end Chain

end Rucbase.Lib
