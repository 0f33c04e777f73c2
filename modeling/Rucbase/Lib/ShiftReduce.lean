import Mathlib.Tactic.Common
import Mathlib.Logic.Relation

/-!
# Shift-reduce parsers driven by tables

A context-free grammar with a semantic action for each production, and the parser that a generator
makes of it: a stack of states with a value each, and a table that says, for the state on top and
the next token, whether to shift the token or to reduce a production. The tokens come from a stream.

Nothing is assumed about the generator. `Table.Sound` and `Table.Complete` are finite checks of a
table against the grammar. A table that passes the first only accepts sentences, with the value the
grammar gives them, on a stack of bounded height and after a bounded number of steps. A table that
passes the second accepts every sentence.
-/

namespace Rucbase.Lib

/-- A symbol of a grammar. -/
inductive GrammarSymbol (κ ν : Type) where
  | terminal (k : κ)
  | nonterminal (n : ν)
deriving DecidableEq, Repr

/-- A grammar: tokens have a kind and a value, and the productions are numbered. -/
structure Grammar (κ ν τ α : Type) where
  numbers : List Nat
  lhs : Nat → ν
  rhs : Nat → List (GrammarSymbol κ ν)
  start : ν
  kind : τ → κ
  value : τ → α
  act : Nat → List α → α

/-- What a table may say. -/
inductive Move where
  | shift (q : Nat)
  | reduce (r : Nat)
  | error
deriving DecidableEq, Repr

/-- The tables of a parser. State 0 is the one it starts in. -/
structure Table (κ ν : Type) where
  action : Nat → κ → Move
  goto : Nat → ν → Nat

variable {κ ν τ α : Type}

namespace Grammar

variable (G : Grammar κ ν τ α)

/-- A list of symbols stands for a list of tokens, with one value for each symbol. -/
inductive Derives : List (GrammarSymbol κ ν) → List τ → List α → Prop where
  | nil : Derives [] [] []
  | token (t : τ) {Xs : List (GrammarSymbol κ ν)} {ts : List τ} {vs : List α} :
      Derives Xs ts vs → Derives (.terminal (G.kind t) :: Xs) (t :: ts) (G.value t :: vs)
  | rule {r : Nat} {Xs : List (GrammarSymbol κ ν)} {ts ts' : List τ} {vs vs' : List α} :
      r ∈ G.numbers → Derives (G.rhs r) ts vs → Derives Xs ts' vs' →
      Derives (.nonterminal (G.lhs r) :: Xs) (ts ++ ts') (G.act r vs :: vs')

/-- A sentence and its value. -/
def Sentence (ts : List τ) (v : α) : Prop :=
  ∃ r ∈ G.numbers, G.lhs r = G.start ∧ ∃ vs, G.Derives (G.rhs r) ts vs ∧ v = G.act r vs

variable {G} {Xs Ys : List (GrammarSymbol κ ν)} {ts ts' : List τ} {vs vs' : List α}

theorem Derives.append (h : G.Derives Xs ts vs) (h' : G.Derives Ys ts' vs') :
    G.Derives (Xs ++ Ys) (ts ++ ts') (vs ++ vs') := by
  induction h with
  | nil => exact h'
  | token t _ ih => exact .token t ih
  | @rule r Xs ts₁ ts₂ vs₁ vs₂ hr hrhs _ _ ih =>
      have := Derives.rule hr hrhs ih
      rwa [← List.append_assoc] at this

theorem Derives.length (h : G.Derives Xs ts vs) : vs.length = Xs.length := by
  induction h with
  | nil => rfl
  | token _ _ ih => simpa using ih
  | rule _ _ _ _ ih => simpa using ih

end Grammar

/-! ## The parser -/

/-- A parser on its way: the states and values of the stack, the top first, and the number of
tokens it has shifted. -/
structure Parser (α : Type) where
  stack : List (Nat × α)
  shifted : Nat

namespace Parser

/-- The state on top. -/
def top (stack : List (Nat × α)) : Nat := (stack.head?.map Prod.fst).getD 0

@[simp] theorem top_nil : top ([] : List (Nat × α)) = 0 := rfl

@[simp] theorem top_cons {q : Nat} {v : α} {stack : List (Nat × α)} :
    top ((q, v) :: stack) = q := rfl

/-- What comes of a step. -/
inductive Outcome (α : Type) where
  | next (p : Parser α)
  | accepted (v : α) (shifted : Nat)
  | rejected

/-- A step: shift the next token, or reduce a production. Reducing one of the start symbol ends the
parse. -/
def step [DecidableEq ν] (G : Grammar κ ν τ α) (T : Table κ ν) (input : Nat → τ) (p : Parser α) :
    Outcome α :=
  match T.action (top p.stack) (G.kind (input p.shifted)) with
  | .shift q => .next ⟨(q, G.value (input p.shifted)) :: p.stack, p.shifted + 1⟩
  | .reduce r =>
      let n := (G.rhs r).length
      let v := G.act r ((p.stack.take n).map Prod.snd).reverse
      if G.lhs r = G.start then .accepted v p.shifted
      else .next ⟨(T.goto (top (p.stack.drop n)) (G.lhs r), v) :: p.stack.drop n, p.shifted⟩
  | .error => .rejected

/-- As many steps as there is fuel for. -/
def run [DecidableEq ν] (G : Grammar κ ν τ α) (T : Table κ ν) (input : Nat → τ) :
    Nat → Parser α → Option (Outcome α)
  | 0, _ => none
  | fuel + 1, p =>
      match step G T input p with
      | .next p' => run G T input fuel p'
      | o => some o

end Parser

/-! ## What a sound table is -/

/-- What is known about the states of a table: the symbol each is entered with, the states it may
lie on, the productions it may reduce, how high the stack under it can be, and an order in which
reductions go upwards. -/
structure Chart (κ ν : Type) where
  /-- The states but for state 0. -/
  states : List Nat
  symbol : Nat → GrammarSymbol κ ν
  below : Nat → List Nat
  reductions : Nat → List Nat
  height : Nat → Nat
  rank : Nat → Nat
  maxHeight : Nat
  maxRank : Nat

namespace Chart

variable [DecidableEq κ] [DecidableEq ν] (C : Chart κ ν)

/-- State `q` may be pushed on `p`, for `X`. -/
def Edge (p : Nat) (X : GrammarSymbol κ ν) (q : Nat) : Prop :=
  p ∈ C.below q ∧ C.symbol q = X

instance (p : Nat) (X : GrammarSymbol κ ν) (q : Nat) : Decidable (C.Edge p X q) :=
  inferInstanceAs (Decidable (_ ∧ _))

/-- Below a stack that ends in state `q`, whatever it is, there are the symbols of `Xs`, the last
first, and then a state that satisfies `after`. -/
def pops (after : Nat → Bool) : List (GrammarSymbol κ ν) → Nat → Bool
  | [], q => after q
  | X :: Xs, q => q != 0 && C.symbol q == X && (C.below q).all fun p => pops after Xs p

/-- What must hold of state `o` when production `r` is reduced from state `q` down to `o`. -/
def lands (G : Grammar κ ν τ α) (T : Table κ ν) (q r o : Nat) : Bool :=
  if G.lhs r = G.start then o == 0
  else decide (C.Edge o (.nonterminal (G.lhs r)) (T.goto o (G.lhs r)))
    && C.rank q < C.rank (T.goto o (G.lhs r))

/-- What must hold of an entry of the table. -/
def Allows (q : Nat) (k : κ) : Move → Prop
  | .shift q' => C.Edge q (.terminal k) q'
  | .reduce r => r ∈ C.reductions q
  | .error => True

instance (q : Nat) (k : κ) : (m : Move) → Decidable (C.Allows q k m)
  | .shift q' => inferInstanceAs (Decidable (C.Edge q (.terminal k) q'))
  | .reduce r => inferInstanceAs (Decidable (r ∈ C.reductions q))
  | .error => isTrue trivial

/-- The chart is right about the table. `eof` is the token that may come again and again. -/
structure Sound (G : Grammar κ ν τ α) (T : Table κ ν) (C : Chart κ ν) (eof : κ) : Prop where
  root : C.below 0 = []
  listed : ∀ q, C.below q ≠ [] → q ∈ C.states
  climbs : ∀ q ∈ C.states, C.height q ≤ C.maxHeight ∧ ∀ p ∈ C.below q, C.height p < C.height q
  bounded : ∀ q, C.rank q ≤ C.maxRank
  allows : ∀ q ∈ 0 :: C.states, ∀ t, C.Allows q (G.kind t) (T.action q (G.kind t))
  ends : ∀ q ∈ C.states, C.symbol q = .terminal eof → ∀ p ∈ C.below q, C.rank p < C.rank q
  reduces : ∀ q ∈ 0 :: C.states, ∀ r ∈ C.reductions q,
    r ∈ G.numbers ∧ C.pops (C.lands G T q r) (G.rhs r).reverse q = true

end Chart

namespace Parser

variable {G : Grammar κ ν τ α} {T : Table κ ν} {C : Chart κ ν}
  {eof : κ} {stack : List (Nat × α)} {ts : List τ} {p p' : Parser α} {input : Nat → τ}

/-- A stack along the edges of the chart, and the tokens it stands for. -/
inductive Path (G : Grammar κ ν τ α) (C : Chart κ ν) : List (Nat × α) → List τ → Prop where
  | nil : Path G C [] []
  | push {stack : List (Nat × α)} {ts ts' : List τ} {X : GrammarSymbol κ ν} {q : Nat} {v : α} :
      Path G C stack ts → C.Edge (top stack) X q → G.Derives [X] ts' [v] →
      Path G C ((q, v) :: stack) (ts ++ ts')

/-- The first `n` tokens of a stream. -/
def tokens (input : Nat → τ) (n : Nat) : List τ := (List.range n).map input

theorem tokens_succ {n : Nat} : tokens input (n + 1) = tokens input n ++ [input n] := by
  rw [tokens, List.range_succ, List.map_append]
  rfl

/-- The stack stands for the tokens that were shifted. -/
def Valid (G : Grammar κ ν τ α) (C : Chart κ ν) (input : Nat → τ) (p : Parser α) : Prop :=
  Path G C p.stack (tokens input p.shifted)

theorem valid_init : Valid G C input ⟨[], 0⟩ := Path.nil

/-- The parser gets on: it shifts a token, or the rank of its state grows. -/
def GetsOn (G : Grammar κ ν τ α) (C : Chart κ ν) (eof : κ) (input : Nat → τ) (p p' : Parser α) :
    Prop :=
  (p'.shifted = p.shifted + 1
      ∧ (G.kind (input p.shifted) = eof → C.rank (top p.stack) < C.rank (top p'.stack)))
  ∨ (p'.shifted = p.shifted ∧ C.rank (top p.stack) < C.rank (top p'.stack))

variable [DecidableEq κ] [DecidableEq ν]

theorem mem_states (hC : C.Sound G T eof) {p q : Nat} {X : GrammarSymbol κ ν}
    (h : C.Edge p X q) : q ∈ C.states :=
  hC.listed q (List.ne_nil_of_mem h.1)

theorem Path.mem (hC : C.Sound G T eof) (h : Path G C stack ts) : ∀ x ∈ stack, x.1 ∈ C.states := by
  induction h with
  | nil => intro x hx; cases hx
  | push _ he _ ih =>
      intro x hx
      rcases List.mem_cons.mp hx with rfl | hx
      · exact mem_states hC he
      · exact ih x hx

theorem Path.top_mem (hC : C.Sound G T eof) (h : Path G C stack ts) :
    top stack ∈ 0 :: C.states := by
  cases h with
  | nil => exact List.mem_cons_self
  | push _ he _ => exact List.mem_cons_of_mem _ (mem_states hC he)

theorem Path.eq_nil (hC : C.Sound G T eof) (h : Path G C stack ts) (htop : top stack = 0) :
    stack = [] ∧ ts = [] := by
  cases h with
  | nil => exact ⟨rfl, rfl⟩
  | push _ he _ =>
      rw [top_cons] at htop
      have hmem := he.1
      rw [htop, hC.root] at hmem
      cases hmem

/-- The stack is no higher than the chart says. -/
theorem Path.height (hC : C.Sound G T eof) (h : Path G C stack ts) :
    stack.length ≤ C.height (top stack) ∧ stack.length ≤ C.maxHeight := by
  induction h with
  | nil => exact ⟨Nat.zero_le _, Nat.zero_le _⟩
  | push _ he _ ih =>
      obtain ⟨hle, hlt⟩ := hC.climbs _ (mem_states hC he)
      have := hlt _ he.1
      rw [List.length_cons, top_cons]
      omega

/-- **What is popped**: the symbols, with a derivation of their own. -/
theorem Path.pop {after : Nat → Bool} : ∀ {Xs : List (GrammarSymbol κ ν)} {stack : List (Nat × α)}
    {ts : List τ}, Path G C stack ts → C.pops after Xs (top stack) = true →
    ∃ ts₁ ts₂, ts = ts₁ ++ ts₂ ∧ Path G C (stack.drop Xs.length) ts₁
      ∧ G.Derives Xs.reverse ts₂ ((stack.take Xs.length).map Prod.snd).reverse
      ∧ after (top (stack.drop Xs.length)) = true
  | [], stack, ts, h, hpops => ⟨ts, [], (List.append_nil ts).symm, h, .nil, hpops⟩
  | X :: Xs, stack, ts, h, hpops => by
      simp only [Chart.pops, Bool.and_eq_true, bne_iff_ne, beq_iff_eq, List.all_eq_true] at hpops
      obtain ⟨⟨hroot, hsymbol⟩, hbelow⟩ := hpops
      cases h with
      | nil => exact absurd rfl hroot
      | @push stack ts ts' Y q v hpath he hv =>
          obtain rfl : Y = X := he.2.symm.trans hsymbol
          obtain ⟨ts₁, ts₂, rfl, hdrop, hderives, hafter⟩ := hpath.pop (hbelow _ he.1)
          refine ⟨ts₁, ts₂ ++ ts', List.append_assoc .., by simpa using hdrop, ?_,
            by simpa using hafter⟩
          simpa using hderives.append hv

/-- **A step of a sound table.** -/
theorem step_sound (hC : C.Sound G T eof) (hp : Valid G C input p) :
    match step G T input p with
    | .next p' => Valid G C input p' ∧ GetsOn G C eof input p p'
    | .accepted v n => n = p.shifted ∧ G.Sentence (tokens input n) v
    | .rejected => True := by
  have hmem := Path.top_mem hC hp
  have hallows := hC.allows _ hmem (input p.shifted)
  unfold step
  cases hmove : T.action (top p.stack) (G.kind (input p.shifted)) with
  | error => trivial
  | shift q =>
      rw [hmove] at hallows
      refine ⟨?_, .inl ⟨rfl, fun heof => ?_⟩⟩
      · change Path G C _ (tokens input (p.shifted + 1))
        rw [tokens_succ]
        exact hp.push hallows (.token _ .nil)
      · exact hC.ends _ (mem_states hC hallows) (hallows.2.trans (by rw [heof])) _ hallows.1
  | reduce r =>
      rw [hmove] at hallows
      obtain ⟨hr, hpops⟩ := hC.reduces _ hmem _ hallows
      obtain ⟨ts₁, ts₂, hts, hpath, hderives, hlands⟩ := Path.pop hp hpops
      rw [List.length_reverse] at hpath hderives hlands
      rw [List.reverse_reverse] at hderives
      unfold Chart.lands at hlands
      by_cases hstart : G.lhs r = G.start
      · rw [if_pos hstart, beq_iff_eq] at hlands
        obtain ⟨-, rfl⟩ := hpath.eq_nil hC hlands
        rw [List.nil_append] at hts
        simp only [if_pos hstart]
        exact ⟨trivial, r, hr, hstart, _, hts ▸ hderives, rfl⟩
      · rw [if_neg hstart, Bool.and_eq_true, decide_eq_true_eq, decide_eq_true_eq] at hlands
        simp only [if_neg hstart]
        refine ⟨?_, .inr ⟨rfl, hlands.2⟩⟩
        change Path G C _ (tokens input p.shifted)
        rw [hts]
        refine hpath.push hlands.1 ?_
        simpa using Grammar.Derives.rule hr hderives .nil

/-- **What a sound table accepts is a sentence**, with its value. -/
theorem run_sound (hC : C.Sound G T eof) : ∀ {fuel : Nat} {p : Parser α} {v : α} {n : Nat},
    Valid G C input p → run G T input fuel p = some (.accepted v n) → G.Sentence (tokens input n) v
  | 0, _, _, _, _, h => by exact absurd h (by simp [run])
  | fuel + 1, p, v, n, hp, h => by
      have hstep := step_sound hC hp
      rw [run] at h
      cases ho : step G T input p with
      | next p' =>
          rw [ho] at h hstep
          exact run_sound hC hstep.1 h
      | accepted v' n' =>
          rw [ho] at h hstep
          obtain ⟨rfl, rfl⟩ : v' = v ∧ n' = n := by simpa using h
          exact hstep.2
      | rejected => rw [ho] at h; exact absurd h (by simp)

/-- How far the end can be. -/
def distance (C : Chart κ ν) (k : Nat) (p : Parser α) : Nat :=
  (k - p.shifted) * (C.maxRank + 1) + (C.maxRank - C.rank (top p.stack))

theorem GetsOn.closer (hC : C.Sound G T eof) {k : Nat} (hk : ∀ i, k ≤ i → G.kind (input i) = eof)
    (h : GetsOn G C eof input p p') : distance C k p' < distance C k p := by
  have hrank := hC.bounded (top p'.stack)
  unfold distance
  rcases h with ⟨hs, heof⟩ | ⟨hs, hlt⟩
  · by_cases hend : k ≤ p.shifted
    · have hlt := heof (hk _ hend)
      rw [hs, Nat.sub_eq_zero_of_le hend, Nat.sub_eq_zero_of_le (by omega)]
      omega
    · obtain ⟨m, hm⟩ : ∃ m, k - p.shifted = m + 1 := ⟨k - p.shifted - 1, by omega⟩
      rw [hs, hm, show k - (p.shifted + 1) = m by omega, Nat.succ_mul]
      omega
  · rw [hs]
    omega

/-- **A parser with a sound table comes to an end** on every stream that does. -/
theorem run_total (hC : C.Sound G T eof) {k : Nat} (hk : ∀ i, k ≤ i → G.kind (input i) = eof) :
    ∀ {fuel : Nat} {p : Parser α}, Valid G C input p → distance C k p < fuel →
      run G T input fuel p = some .rejected ∨ ∃ v n, run G T input fuel p = some (.accepted v n)
  | 0, _, _, h => absurd h (Nat.not_lt_zero _)
  | fuel + 1, p, hp, h => by
      have hstep := step_sound hC hp
      rw [run]
      cases ho : step G T input p with
      | next p' =>
          rw [ho] at hstep
          have := hstep.2.closer hC hk
          exact run_total hC hk hstep.1 (by omega)
      | accepted v n => exact .inr ⟨v, n, rfl⟩
      | rejected => exact .inl rfl

end Parser

/-! ## What a complete table is -/

/-- In a state, a phrase for a nonterminal may come, and after it a token of one of these kinds. -/
structure Await (κ ν : Type) where
  state : Nat
  symbol : ν
  follow : List κ

/-- What is expected in which state, the tokens that a phrase may begin with, and whether it may be
empty. -/
structure Plan (κ ν : Type) where
  awaits : List (Await κ ν)
  first : ν → List κ
  nullable : ν → Bool

namespace Plan

variable [DecidableEq κ] [DecidableEq ν] (P : Plan κ ν)

/-- The symbol may stand for no tokens. -/
def empties : GrammarSymbol κ ν → Bool
  | .terminal _ => false
  | .nonterminal n => P.nullable n

/-- The tokens that may come when `Xs` does, and then a token of `after`. -/
def firsts (after : List κ) : List (GrammarSymbol κ ν) → List κ
  | [] => after
  | .terminal k :: _ => [k]
  | .nonterminal n :: Xs => if P.nullable n then P.first n ++ firsts after Xs else P.first n

/-- `Xs` may come in state `q`, and production `r` is reduced at its end. -/
def walks (G : Grammar κ ν τ α) (T : Table κ ν) (after : List κ) (r : Nat) :
    List (GrammarSymbol κ ν) → Nat → Bool
  | [], q => after.all fun k => T.action q k == .reduce r
  | .terminal k :: Xs, q =>
      match T.action q k with
      | .shift q' => walks G T after r Xs q'
      | _ => false
  | .nonterminal n :: Xs, q =>
      n != G.start
      && (P.awaits.any fun a => a.state == q && a.symbol == n
          && (P.firsts after Xs).all fun k => a.follow.contains k)
      && walks G T after r Xs (T.goto q n)

/-- The plan is right about the grammar, and the table keeps to it. -/
structure Complete (G : Grammar κ ν τ α) (T : Table κ ν) (P : Plan κ ν) : Prop where
  walks : ∀ a ∈ P.awaits, ∀ r ∈ G.numbers, G.lhs r = a.symbol →
    P.walks G T a.follow r (G.rhs r) a.state = true
  firsts : ∀ r ∈ G.numbers, ∀ k ∈ P.firsts [] (G.rhs r), k ∈ P.first (G.lhs r)
  nullable : ∀ r ∈ G.numbers,
    (G.rhs r).all P.empties = true → P.nullable (G.lhs r) = true
  start : ∃ a ∈ P.awaits, a.state = 0 ∧ a.symbol = G.start ∧ ∀ t, G.kind t ∈ a.follow

end Plan

namespace Plan

variable {G : Grammar κ ν τ α} {T : Table κ ν} {P : Plan κ ν}
  {Xs Ys : List (GrammarSymbol κ ν)} {ts : List τ} {vs : List α} {after : List κ}

/-- The tokens that a stream has from a position on. -/
def Reads (input : Nat → τ) : Nat → List τ → Prop
  | _, [] => True
  | n, t :: ts => input n = t ∧ Reads input (n + 1) ts

theorem reads_append {input : Nat → τ} : ∀ {n : Nat} {ts ts' : List τ},
    Reads input n (ts ++ ts') ↔ Reads input n ts ∧ Reads input (n + ts.length) ts'
  | n, [], ts' => by simp [Reads]
  | n, t :: ts, ts' => by
      rw [List.cons_append, Reads, Reads, reads_append, List.length_cons, and_assoc,
        Nat.add_right_comm, Nat.add_assoc]

theorem reads_tokens {input : Nat → τ} : ∀ {ts : List τ} {n : Nat},
    Reads input n ts ↔ ts = (List.range' n ts.length).map input
  | [], _ => by simp [Reads]
  | t :: ts, n => by
      rw [Reads, reads_tokens, List.length_cons, List.range'_succ, List.map_cons, List.cons.injEq,
        eq_comm]

theorem firsts_append : P.firsts after (Xs ++ Ys) = P.firsts (P.firsts after Ys) Xs := by
  induction Xs with
  | nil => rfl
  | cons X Xs ih =>
      cases X with
      | terminal k => rfl
      | nonterminal n => rw [List.cons_append, firsts, firsts, ih]

/-- Some steps of the parser. -/
def Steps [DecidableEq ν] (G : Grammar κ ν τ α) (T : Table κ ν) (input : Nat → τ) : Parser α → Parser α → Prop :=
  Relation.ReflTransGen fun p p' => Parser.step G T input p = .next p'

/-- A production is reduced: the values of its symbols lie on top. -/
theorem step_reduce [DecidableEq ν] {input : Nat → τ} {r : Nat} {pushed stack : List (Nat × α)} {n : Nat}
    (hmove : T.action (Parser.top (pushed ++ stack)) (G.kind (input n)) = .reduce r)
    (hlen : pushed.length = (G.rhs r).length) :
    Parser.step G T input ⟨pushed ++ stack, n⟩ =
      if G.lhs r = G.start then .accepted (G.act r (pushed.map Prod.snd).reverse) n
      else .next
        ⟨(T.goto (Parser.top stack) (G.lhs r), G.act r (pushed.map Prod.snd).reverse) :: stack, n⟩ := by
  simp only [Parser.step, hmove, ← hlen, List.take_left, List.drop_left]

theorem run_of_steps [DecidableEq ν] {input : Nat → τ} {p p' : Parser α} (hsteps : Steps G T input p p') {v : α}
    {n : Nat} (hend : Parser.step G T input p' = .accepted v n) :
    ∃ fuel, Parser.run G T input fuel p = some (.accepted v n) := by
  induction hsteps using Relation.ReflTransGen.head_induction_on with
  | refl => exact ⟨1, by simp [Parser.run, hend]⟩
  | head hstep _ ih =>
      obtain ⟨fuel, hrun⟩ := ih
      exact ⟨fuel + 1, by rw [Parser.run, hstep]; exact hrun⟩

variable [DecidableEq κ] [DecidableEq ν]

theorem empties_of_nil (hP : P.Complete G T) (h : G.Derives Xs ts vs) (hts : ts = []) :
    Xs.all P.empties = true := by
  induction h with
  | nil => rfl
  | token => exact absurd hts (by simp)
  | rule hr _ _ ih ih' =>
      obtain ⟨h₁, h₂⟩ := List.append_eq_nil_iff.mp hts
      rw [List.all_cons, Bool.and_eq_true]
      exact ⟨hP.nullable _ hr (ih h₁), ih' h₂⟩

theorem first_mem (hP : P.Complete G T) (h : G.Derives Xs ts vs) :
    ∀ {t : τ} {rest : List τ}, ts = t :: rest → G.kind t ∈ P.firsts [] Xs := by
  induction h with
  | nil => intro t rest hts; exact absurd hts (by simp)
  | token t _ _ =>
      intro t' rest hts
      obtain ⟨rfl, -⟩ := List.cons.inj hts
      simp [firsts]
  | @rule r Xs ts₁ ts₂ vs₁ vs₂ hr hrhs _ ih ih' =>
      intro t rest hts
      cases ts₁ with
      | nil =>
          have hnull := hP.nullable _ hr (empties_of_nil hP hrhs rfl)
          simp [firsts, hnull, ih' hts]
      | cons t' ts₁ =>
          obtain ⟨rfl, -⟩ := List.cons.inj hts
          have := hP.firsts _ hr _ (ih rfl)
          rw [firsts]
          split
          · exact List.mem_append_left _ this
          · exact this

/-- What comes next, when `Xs` and then a token of `after` comes. -/
theorem firsts_next (hP : P.Complete G T) {input : Nat → τ} (h : G.Derives Xs ts vs) :
    ∀ {n : Nat}, Reads input n ts → G.kind (input (n + ts.length)) ∈ after →
      G.kind (input n) ∈ P.firsts after Xs := by
  induction h with
  | nil => intro n _ hafter; exact hafter
  | token t _ _ =>
      intro n hreads _
      rw [hreads.1, firsts]
      exact List.mem_singleton.mpr rfl
  | @rule r Xs ts₁ ts₂ vs₁ vs₂ hr hrhs hrest ih ih' =>
      intro n hreads hafter
      cases ts₁ with
      | nil =>
          have hnull := hP.nullable _ hr (empties_of_nil hP hrhs rfl)
          rw [firsts, if_pos hnull]
          exact List.mem_append_right _ (ih' hreads hafter)
      | cons t ts₁ =>
          have hfirst := hP.firsts _ hr _ (first_mem hP hrhs rfl)
          rw [hreads.1, firsts]
          split
          · exact List.mem_append_left _ hfirst
          · exact hfirst

/-- **A table that keeps to a plan gets through a phrase.** -/
theorem steps_of_derives (hP : P.Complete G T) {input : Nat → τ} (h : G.Derives Xs ts vs) :
    ∀ {Ys : List (GrammarSymbol κ ν)} {after : List κ} {r : Nat} {stack : List (Nat × α)} {n : Nat},
      P.walks G T after r (Xs ++ Ys) (Parser.top stack) = true → Reads input n ts →
      G.kind (input (n + ts.length)) ∈ P.firsts after Ys →
      ∃ pushed : List (Nat × α), (pushed.map Prod.snd).reverse = vs
        ∧ P.walks G T after r Ys (Parser.top (pushed ++ stack)) = true
        ∧ Steps G T input ⟨stack, n⟩ ⟨pushed ++ stack, n + ts.length⟩ := by
  induction h with
  | nil =>
      intro Ys after r stack n hwalks _ _
      exact ⟨[], rfl, hwalks, .refl⟩
  | @token t Xs ts vs _ ih =>
      intro Ys after r stack n hwalks hreads hnext
      rw [List.cons_append, walks] at hwalks
      obtain ⟨rfl, hreads⟩ := hreads
      cases hmove : T.action (Parser.top stack) (G.kind (input n)) with
      | shift q =>
          rw [hmove] at hwalks
          rw [List.length_cons, ← Nat.add_assoc, Nat.add_right_comm] at hnext
          obtain ⟨pushed, hvs, hwalks', hsteps⟩ :=
            @ih _ _ _ ((q, G.value (input n)) :: stack) _ (by simpa using hwalks) hreads hnext
          have hstep : Parser.step G T input ⟨stack, n⟩
              = .next ⟨(q, G.value (input n)) :: stack, n + 1⟩ := by
            simp only [Parser.step, hmove]
          refine ⟨pushed ++ [(q, G.value (input n))], by simp [hvs], by simpa using hwalks', ?_⟩
          rw [List.append_assoc, List.length_cons, ← Nat.add_assoc, Nat.add_right_comm]
          exact .head hstep hsteps
      | reduce _ => rw [hmove] at hwalks; exact absurd hwalks (by simp)
      | error => rw [hmove] at hwalks; exact absurd hwalks (by simp)
  | @rule r' Xs ts₁ ts₂ vs₁ vs₂ hr hrhs hrest ih ih' =>
      intro Ys after r stack n hwalks hreads hnext
      simp only [List.cons_append, walks, Bool.and_eq_true, bne_iff_ne, List.any_eq_true,
        beq_iff_eq, List.all_eq_true, List.contains_iff_mem] at hwalks
      obtain ⟨⟨hstart, a, ha, ⟨hstate, hsymbol⟩, hfollow⟩, hwalks⟩ := hwalks
      obtain ⟨hreads₁, hreads₂⟩ := reads_append.mp hreads
      rw [List.length_append, ← Nat.add_assoc] at hnext
      -- the phrase itself
      have hla : G.kind (input (n + ts₁.length)) ∈ a.follow := by
        refine hfollow _ ?_
        rw [firsts_append]
        exact firsts_next hP hrest hreads₂ hnext
      have hown := hP.walks a ha r' hr hsymbol.symm
      rw [hstate, ← List.append_nil (G.rhs r')] at hown
      obtain ⟨pushed, hvs, hend, hsteps⟩ := ih hown hreads₁ hla
      simp only [walks, List.all_eq_true, beq_iff_eq] at hend
      have hlen : pushed.length = (G.rhs r').length := by
        rw [← hrhs.length, ← hvs, List.length_reverse, List.length_map]
      have hreduce := step_reduce (hend _ hla) hlen
      rw [if_neg hstart, hvs] at hreduce
      -- what comes after it
      obtain ⟨pushed', hvs', hwalks', hsteps'⟩ :=
        @ih' _ _ _ ((T.goto (Parser.top stack) (G.lhs r'), G.act r' vs₁) :: stack) _
          (by simpa using hwalks) hreads₂ hnext
      refine ⟨pushed' ++ [(T.goto (Parser.top stack) (G.lhs r'), G.act r' vs₁)], by simp [hvs'],
        by simpa using hwalks', ?_⟩
      rw [List.append_assoc, List.length_append, ← Nat.add_assoc]
      exact hsteps.trans (.head hreduce hsteps')

/-- **A complete table accepts every sentence**, with its value, and stops behind it. -/
theorem run_complete (hP : P.Complete G T) {input : Nat → τ} {v : α} (h : G.Sentence ts v)
    (hreads : Reads input 0 ts) :
    ∃ fuel, Parser.run G T input fuel ⟨[], 0⟩ = some (.accepted v ts.length) := by
  obtain ⟨r, hr, hlhs, vs, hderives, rfl⟩ := h
  obtain ⟨a, ha, hstate, hsymbol, hall⟩ := hP.start
  have hown := hP.walks a ha r hr (hlhs.trans hsymbol.symm)
  rw [hstate, ← List.append_nil (G.rhs r)] at hown
  have hroot : P.walks G T a.follow r (G.rhs r ++ []) (Parser.top ([] : List (Nat × α))) = true :=
    hown
  obtain ⟨pushed, hvs, hend, hsteps⟩ := steps_of_derives hP hderives hroot hreads (hall _)
  rw [List.append_nil] at hend hsteps
  simp only [walks, List.all_eq_true, beq_iff_eq] at hend
  have hlen : pushed.length = (G.rhs r).length := by
    rw [← hderives.length, ← hvs, List.length_reverse, List.length_map]
  rw [Nat.zero_add] at hsteps
  have hlast : Parser.step G T input ⟨pushed ++ [], ts.length⟩ = _ :=
    step_reduce (by rw [List.append_nil]; exact hend _ (hall _)) hlen
  rw [if_pos hlhs, List.append_nil, hvs] at hlast
  exact run_of_steps hsteps hlast

end Plan

namespace Parser

variable {G : Grammar κ ν τ α} {T : Table κ ν} {C : Chart κ ν}
  {P : Plan κ ν} {eof : κ} {input : Nat → τ}

/-- More fuel does not matter. -/
theorem run_mono [DecidableEq ν] {o : Outcome α} : ∀ {fuel fuel' : Nat} {p : Parser α},
    run G T input fuel p = some o → fuel ≤ fuel' → run G T input fuel' p = some o
  | 0, _, _, h, _ => by exact absurd h (by simp [run])
  | fuel + 1, 0, _, _, hle => absurd hle (by omega)
  | fuel + 1, fuel' + 1, p, h, hle => by
      rw [run] at h ⊢
      cases ho : step G T input p with
      | next p' =>
          rw [ho] at h
          exact run_mono h (by omega)
      | accepted v n => rw [ho] at h; exact h
      | rejected => rw [ho] at h; exact h

theorem reads_tokens {n : Nat} : Plan.Reads input 0 (tokens input n) := by
  rw [Plan.reads_tokens, tokens, List.length_map, List.length_range, List.range_eq_range']

variable [DecidableEq κ] [DecidableEq ν]

/-- **A table that is sound and complete decides the language**: on a stream that ends at `k`, the
parser accepts the first `n` tokens with value `v` exactly if they are a sentence with this value,
and otherwise it rejects. -/
theorem run_iff (hC : C.Sound G T eof) (hP : P.Complete G T) {k : Nat}
    (hk : ∀ i, k ≤ i → G.kind (input i) = eof) {fuel : Nat}
    (hfuel : (k + 1) * (C.maxRank + 1) ≤ fuel) {v : α} {n : Nat} :
    run G T input fuel ⟨[], 0⟩ = some (.accepted v n) ↔ G.Sentence (tokens input n) v := by
  constructor
  · exact run_sound hC valid_init
  · intro h
    obtain ⟨fuel', hrun⟩ := Plan.run_complete hP h reads_tokens
    rw [show (tokens input n).length = n by rw [tokens, List.length_map, List.length_range]] at hrun
    have hdistance : distance C k (⟨[], 0⟩ : Parser α) < fuel := by
      rw [Nat.succ_mul] at hfuel
      simp only [distance, Nat.sub_zero]
      omega
    have hmax := run_mono hrun (Nat.le_max_left fuel' fuel)
    rcases run_total hC hk valid_init hdistance with hend | ⟨v', n', hend⟩ <;>
      · rw [run_mono hend (Nat.le_max_right fuel' fuel)] at hmax
        rw [hend]
        exact hmax

end Parser

end Rucbase.Lib
