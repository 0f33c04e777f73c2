import Mathlib.Data.List.TakeWhile
import Rucbase.Parser.Actions
import Rucbase.Parser.Tables

/-!
# The generated parser and the grammar

`yyparse` against `Lib.Parser` with the same tables: the same rounds, with slots and a lookahead
token instead of values and a position in the input. What the tables were checked for then holds of
`yyparse`: it accepts the sentences of the grammar and nothing else, with the tree the actions make,
it reads the tokens of the sentence and none after it, and its stacks never come near their end.

An empty rule has no first symbol, and `yyparse` takes what lies above the stack for its value. The
one empty rule of the grammar is that for a missing clause with conditions, and its action leaves
the value as it is: whatever list of conditions lies there is the statement's. `Sim.stale` is why it
is the empty one.
-/

namespace Rucbase

open Lib Ast

namespace Yyparse

open Grammar

variable {N : Numerals} {input : Nat → Token} {s : Locals} {p : Lib.Parser Val}

/-! ## What else the tables were checked for -/

/-- The symbols whose values are conditions. -/
def isConds (X : GrammarSymbol Terminal Nonterminal) : Bool :=
  X = nt .whereClause || X = nt .optWhereClause

def isTerminal : GrammarSymbol Terminal Nonterminal → Bool
  | .terminal _ => true
  | .nonterminal _ => false

/-- The states after the conditions of a statement: conditions may lie above the stack. -/
def afterConds : List Nat := [17, 21, 40, 56, 75, 79]

/-- Reducing rule `r` leaves conditions above the stack only in the states after them. -/
def leaves (q r o : Nat) : Bool :=
  (rule r).lhs = .start || afterConds.contains (table.goto o (rule r).lhs)
    || !afterConds.contains q && (rule r).rhs.tail.all fun X => !isConds X

/-- What the kernel checks of the rules. -/
theorem rule_checks : ∀ r ∈ List.range' 2 60, yyr1.getD r 0 = (rule r).lhs.number ∧
    yyr2.getD r 0 = (rule r).rhs.length ∧ ((rule r).lhs = .start ↔ r ≤ 5) := by
  decide +kernel

/-- What the kernel checks of the states. -/
theorem state_checks : (∀ q ∈ 0 :: chart.states, shiftsError q = false ∧ q ≠ yyFinal ∧
      ∀ r ∈ chart.reductions q, chart.pops (leaves q r) (rule r).rhs.reverse q = true ∧
        (r = 36 → q ∉ afterConds) ∧
        ((rule r).lhs = .start →
          yypact.getD q 0 = yypactNinf ∧ isTerminal (chart.symbol q) = true)) ∧
    ∀ q ∈ chart.states, isTerminal (chart.symbol q) = true → q ∉ afterConds →
      ∀ p ∈ chart.below q, p ∉ afterConds := by
  decide +kernel

/-! ## The simulation -/

/-- `s` has come as far as `p`: the same states, the values in the slots, and at most one token
read ahead. -/
structure Sim (N : Numerals) (input : Nat → Token) (s : Locals) (p : Lib.Parser Val) : Prop where
  yyss : s.yyss = p.stack.map Prod.fst ++ [0]
  yyvs : ∀ i w, (p.stack.map Prod.snd).reverse[i]? = some w → Holds w (s.yyvs (i + 1))
  /-- No conditions lie above the stack, but where they do no harm. -/
  stale : Parser.top p.stack ∉ afterConds → ∀ i, p.stack.length < i → (s.yyvs i).svConds = []
  yychar : match s.yychar with
    | none => s.calls = p.shifted
    | some t => s.calls = p.shifted + 1 ∧ t = input p.shifted ∧ Holds (tokenVal N t) s.yylval
  yylval : s.yylval.svConds = []

theorem sim_init (parseTree : Option TreeNode) : Sim N input (init parseTree) ⟨[], 0⟩ where
  yyss := rfl
  yyvs _ _ h := by simp at h
  stale _ _ _ := rfl
  yychar := rfl
  yylval := rfl

theorem Sim.yystate_eq (hs : Sim N input s p) : s.yystate = Parser.top p.stack := by
  rw [Locals.yystate, hs.yyss]
  cases p.stack <;> rfl

theorem Sim.yyvsp_eq (hs : Sim N input s p) : s.yyvsp = p.stack.length := by
  simp [Locals.yyvsp, hs.yyss]

theorem yylex_svConds (x : SemValue) (t : Token) : (yylex N x t).svConds = x.svConds := by
  cases t <;> rfl

theorem Sim.lookahead (hs : Sim N input s p) : Sim N input (lookahead N input s) p := by
  have hchar := hs.yychar
  unfold Yyparse.lookahead
  cases hc : s.yychar with
  | some t => exact hs
  | none =>
      rw [hc] at hchar
      exact ⟨hs.yyss, hs.yyvs, hs.stale,
        ⟨congrArg (· + 1) hchar, congrArg input hchar, tokenVal_holds N _ hs.yylval⟩,
        (yylex_svConds ..).trans hs.yylval⟩

theorem Sim.lookahead_yychar (hs : Sim N input s p) :
    (Yyparse.lookahead N input s).yychar = some (input p.shifted) := by
  have hchar := hs.yychar
  unfold Yyparse.lookahead
  cases hc : s.yychar with
  | some t =>
      rw [hc] at hchar
      exact hc.trans (congrArg some hchar.2.1)
  | none =>
      rw [hc] at hchar
      exact congrArg (some <| input ·) hchar

/-- `yynewstate` has room, and state 39 is not one that is pushed. -/
theorem yynewstate_next {stack : List (Nat × Val)} {q : Nat} (x : SemValue)
    (hss : s.yyss = stack.map Prod.fst ++ [0]) (hroom : stack.length ≤ chart.maxHeight)
    (hq : q ∈ chart.states) :
    yynewstate s q x = .next { s with
      yyss := q :: s.yyss
      yyvs := Function.update s.yyvs (stack.length + 1) x } := by
  have hvsp : s.yyvsp = stack.length := by simp [Locals.yyvsp, hss]
  have hne : q ≠ yyFinal := (state_checks.1 q (List.mem_cons_of_mem _ hq)).2.1
  have hlow : ¬ yyInitDepth - 1 ≤ stack.length + 1 := by
    have : chart.maxHeight = 12 := rfl
    rw [yyInitDepth]
    omega
  simp only [yynewstate, hvsp, if_neg hne]
  rw [if_neg]
  simpa [Locals.yyvsp, hss] using hlow

/-- A value is pushed on those of a stack. -/
theorem holds_push {f : Nat → SemValue} {ws : List Val} {w : Val} {x : SemValue}
    (h : ∀ i w', ws[i]? = some w' → Holds w' (f (i + 1))) (hw : Holds w x) (i : Nat) (w' : Val)
    (hi : (ws ++ [w])[i]? = some w') : Holds w' (Function.update f (ws.length + 1) x (i + 1)) := by
  rcases Nat.lt_trichotomy i ws.length with hlt | rfl | hgt
  · rw [List.getElem?_append_left hlt] at hi
    rw [Function.update_of_ne (by omega)]
    exact h i w' hi
  · obtain rfl : w = w' := by simpa using hi
    rwa [Function.update_self]
  · rw [List.getElem?_eq_none (by simp; omega)] at hi
    exact absurd hi (by simp)

theorem Sim.shift (hs : Sim N input s p) (hp : Parser.Valid (grammar N) chart input p)
    (hchar : s.yychar = some (input p.shifted)) {q : Nat}
    (he : chart.Edge (Parser.top p.stack) (.terminal (input p.shifted).terminal) q) :
    ∃ s', yynewstate { s with yychar := none } q s.yylval = .next s' ∧ s'.yychar = none
      ∧ Sim N input s' ⟨(q, tokenVal N (input p.shifted)) :: p.stack, p.shifted + 1⟩ := by
  have hahead := hs.yychar
  rw [hchar] at hahead
  obtain ⟨hcalls, -, hholds⟩ := hahead
  refine ⟨_, yynewstate_next s.yylval (s := { s with yychar := none }) hs.yyss
    (hp.height (chart_sound N)).2 (Parser.mem_states (chart_sound N) he), rfl, ?_⟩
  constructor
  · exact congrArg (q :: ·) hs.yyss
  · simpa using holds_push hs.yyvs hholds
  · intro htop i hi
    rw [Parser.top_cons] at htop
    rw [List.length_cons] at hi
    have hbefore := state_checks.2 q (Parser.mem_states (chart_sound N) he) (by rw [he.2]; rfl) htop _ he.1
    change (Function.update s.yyvs (p.stack.length + 1) s.yylval i).svConds = []
    rw [Function.update_of_ne (by omega)]
    exact hs.stale hbefore i (by omega)
  · exact hcalls
  · exact hs.yylval

theorem slots_of {f : Nat → SemValue} : ∀ {ws : List Val} {i : Nat},
    (∀ j w, ws[j]? = some w → Holds w (f (i + j))) → Slots f i ws
  | [], _, _ => trivial
  | w :: ws, i, h => by
      refine ⟨h 0 w rfl, slots_of fun j w' hj => ?_⟩
      rw [Nat.add_assoc, Nat.add_comm 1]
      exact h (j + 1) w' hj

theorem values_append (stack : List (Nat × Val)) (n : Nat) :
    (stack.map Prod.snd).reverse
      = ((stack.drop n).map Prod.snd).reverse ++ ((stack.take n).map Prod.snd).reverse := by
  rw [← List.reverse_append, ← List.map_append, List.take_append_drop]

/-- The values on top, counted from below. -/
theorem values_getElem? {stack : List (Nat × Val)} {n : Nat} (j : Nat) :
    ((stack.take n).map Prod.snd).reverse[j]?
      = (stack.map Prod.snd).reverse[stack.length - n + j]? := by
  rw [values_append stack n, List.getElem?_append_right (by simp), List.length_reverse,
    List.length_map, List.length_drop, Nat.add_sub_cancel_left]

/-- The slots of the values on top. -/
theorem Sim.slots (hs : Sim N input s p) {n : Nat} (hn : n ≤ p.stack.length) :
    Slots (fun m => s.yyvs (s.yyvsp + m - n)) 1 ((p.stack.take n).map Prod.snd).reverse := by
  refine slots_of fun j w hj => ?_
  rw [values_getElem?] at hj
  have := hs.yyvs _ w hj
  rwa [show p.stack.length - n + j + 1 = s.yyvsp + (1 + j) - n by rw [hs.yyvsp_eq]; omega] at this

theorem fits_condsOf {X : GrammarSymbol Terminal Nonterminal} {w : Val} (h : Fits X w)
    (hX : isConds X = false) : w.condsOf = [] := by
  cases w with
  | conds cs =>
      cases X with
      | terminal k => cases k <;> simp [Fits] at h
      | nonterminal n => cases n <;> simp [Fits, isConds] at h hX
  | _ => rfl

theorem forall₂_condsOf {Xs : List (GrammarSymbol Terminal Nonterminal)} {ws : List Val}
    (h : List.Forall₂ Fits Xs ws) (hXs : (Xs.all fun X => !isConds X) = true) :
    ∀ w ∈ ws, w.condsOf = [] := by
  induction h with
  | nil => intro w hw; cases hw
  | cons hfits _ ih =>
      rw [List.all_cons, Bool.and_eq_true, Bool.not_eq_true'] at hXs
      intro w hw
      rcases List.mem_cons.mp hw with rfl | hw
      · exact fits_condsOf hfits hXs.1
      · exact ih hXs.2 w hw

theorem tail_condsOf {Xs : List (GrammarSymbol Terminal Nonterminal)} {ws : List Val}
    (h : List.Forall₂ Fits Xs ws) (hXs : (Xs.tail.all fun X => !isConds X) = true) :
    ∀ w ∈ ws.tail, w.condsOf = [] := by
  cases h with
  | nil => intro w hw; cases hw
  | cons _ h => exact forall₂_condsOf h hXs

theorem parseTree_eq_none {r : Nat} (h : ¬ r ≤ 5) (v : Nat → SemValue) : parseTree r v = none := by
  unfold parseTree
  split <;> first | omega | rfl

theorem parseTree_eq_some {r : Nat} (hr : 2 ≤ r) (h : r ≤ 5) (v : Nat → SemValue) :
    ∃ t, parseTree r v = some t := by
  obtain rfl | rfl | rfl | rfl : r = 2 ∨ r = 3 ∨ r = 4 ∨ r = 5 := by omega
  all_goals exact ⟨_, rfl⟩

/-- What lies on top when a rule is reduced: a value for each symbol. -/
structure Top (N : Numerals) (p : Lib.Parser Val) (r : Nat) : Prop where
  mem : r ∈ List.range' 2 60
  le : (rule r).rhs.length ≤ p.stack.length
  fits : List.Forall₂ Fits (rule r).rhs
    ((p.stack.take (rule r).rhs.length).map Prod.snd).reverse
  leaves : leaves (Parser.top p.stack) r (Parser.top (p.stack.drop (rule r).rhs.length)) = true
  lands : chart.lands (grammar N) table (Parser.top p.stack) r
    (Parser.top (p.stack.drop (rule r).rhs.length)) = true
  height : p.stack.length ≤ chart.maxHeight
  empty : r = 36 → Parser.top p.stack ∉ afterConds

theorem top_of_valid (hp : Parser.Valid (grammar N) chart input p) {r : Nat}
    (hr : r ∈ chart.reductions (Parser.top p.stack)) : Top N p r := by
  have hmem := hp.top_mem (chart_sound N)
  have hreduces := (chart_sound N).reduces _ hmem r hr
  have hchecks := (state_checks.1 _ hmem).2.2 r hr
  obtain ⟨_, _, -, -, hderives, hlands⟩ := hp.pop hreduces.2
  obtain ⟨_, _, -, -, -, hleaves⟩ := hp.pop hchecks.1
  rw [List.length_reverse] at hderives hlands hleaves
  rw [List.reverse_reverse] at hderives
  have hlength : _ = (rule r).rhs.length := hderives.length
  rw [List.length_reverse, List.length_map, List.length_take] at hlength
  exact ⟨hreduces.1, by omega, fits_of_derives hderives, hleaves, hlands,
    (hp.height (chart_sound N)).2, hchecks.2.1⟩

theorem Top.edge {r : Nat} (ht : Top N p r) (hstart : (rule r).lhs ≠ .start) :
    chart.Edge (Parser.top (p.stack.drop (rule r).rhs.length)) (.nonterminal (rule r).lhs)
      (table.goto (Parser.top (p.stack.drop (rule r).rhs.length)) (rule r).lhs) := by
  have hlands := ht.lands
  rw [Chart.lands, if_neg (show ¬ (grammar N).lhs r = (grammar N).start from hstart),
    Bool.and_eq_true, decide_eq_true_eq] at hlands
  exact hlands.1

/-- The slots are right for the action of the rule. -/
theorem Sim.works (hs : Sim N input s p) {r : Nat} (ht : Top N p r) :
    match parseTree r (fun m => s.yyvs (s.yyvsp + m - (rule r).rhs.length)) with
    | some t =>
        (rule r).act ((p.stack.take (rule r).rhs.length).map Prod.snd).reverse = .tree t
    | none =>
        Holds ((rule r).act ((p.stack.take (rule r).rhs.length).map Prod.snd).reverse)
          (action r (s.yyvs (s.yyvsp + 1 - (rule r).rhs.length))
            fun m => s.yyvs (s.yyvsp + m - (rule r).rhs.length)) := by
  refine Grammar.works ht.mem _ _ ht.fits (hs.slots ht.le) fun h36 => ?_
  -- the empty rule: the slot is the one above the stack
  subst h36
  exact hs.stale (ht.empty rfl) _ (by rw [hs.yyvsp_eq]; exact Nat.lt_succ_self _)

theorem Sim.reduce_start (hs : Sim N input s p) {r : Nat} (ht : Top N p r)
    (hstart : (rule r).lhs = .start) (hchar : s.yychar = none) :
    ∃ s', yyreduce s r = .accept s' ∧ s'.calls = p.shifted
      ∧ (rule r).act ((p.stack.take (rule r).rhs.length).map Prod.snd).reverse
          = .tree s'.parseTree := by
  have hworks := hs.works ht
  obtain ⟨t, htree⟩ := parseTree_eq_some (List.mem_range'_1.mp ht.mem).1
    ((rule_checks r ht.mem).2.2.mp hstart) fun m => s.yyvs (s.yyvsp + m - (rule r).rhs.length)
  rw [htree] at hworks
  refine ⟨{ s with parseTree := t }, ?_, ?_, hworks⟩
  · simp only [yyreduce, (rule_checks r ht.mem).2.1, htree]
  · have := hs.yychar
    rwa [hchar] at this

theorem Sim.yyss_drop (hs : Sim N input s p) {n : Nat} (hn : n ≤ p.stack.length) :
    s.yyss.drop n = (p.stack.drop n).map Prod.fst ++ [0] := by
  rw [hs.yyss, List.drop_append_of_le_length (by simpa using hn), List.map_drop]

/-- The rounds that reduce another rule. -/
theorem Sim.yyreduce_eq (hs : Sim N input s p) {r : Nat} (ht : Top N p r)
    (hstart : (rule r).lhs ≠ .start) :
    yyreduce s r = .next { s with
      yyss := table.goto (Parser.top (p.stack.drop (rule r).rhs.length)) (rule r).lhs
        :: s.yyss.drop (rule r).rhs.length
      yyvs := Function.update s.yyvs ((p.stack.drop (rule r).rhs.length).length + 1)
        (action r (s.yyvs (s.yyvsp + 1 - (rule r).rhs.length))
          fun m => s.yyvs (s.yyvsp + m - (rule r).rhs.length)) } := by
  have hnone := parseTree_eq_none (fun h => hstart ((rule_checks r ht.mem).2.2.mpr h))
    fun m => s.yyvs (s.yyvsp + m - (rule r).rhs.length)
  obtain ⟨hr1, hr2, -⟩ := rule_checks r ht.mem
  have hss := hs.yyss_drop ht.le
  have hgoto : gotoState (Locals.yystate { s with yyss := s.yyss.drop (rule r).rhs.length })
      (rule r).lhs.number
        = table.goto (Parser.top (p.stack.drop (rule r).rhs.length)) (rule r).lhs := by
    rw [Locals.yystate, hss]
    cases p.stack.drop (rule r).rhs.length <;> rfl
  have hroom : (p.stack.drop (rule r).rhs.length).length ≤ chart.maxHeight := by
    rw [List.length_drop]
    have := ht.height
    omega
  simp only [yyreduce, hr1, hr2, hnone, hgoto]
  exact yynewstate_next _ hss hroom (Parser.mem_states (chart_sound N) (ht.edge hstart))

/-- The values below those on top. -/
theorem Sim.below (hs : Sim N input s p) (n : Nat) (i : Nat) (w : Val)
    (hi : ((p.stack.drop n).map Prod.snd).reverse[i]? = some w) : Holds w (s.yyvs (i + 1)) := by
  obtain ⟨hlt, -⟩ := List.getElem?_eq_some_iff.mp hi
  refine hs.yyvs i w ?_
  rwa [values_append _ n, List.getElem?_append_left hlt]

/-- What lies above the stack after another rule: what did before, or a symbol of the rule that is
not its first. -/
theorem Sim.stale_reduce (hs : Sim N input s p) {r : Nat} (ht : Top N p r)
    (hstart : (rule r).lhs ≠ .start)
    (htop : table.goto (Parser.top (p.stack.drop (rule r).rhs.length)) (rule r).lhs ∉ afterConds)
    {i : Nat} (hi : (p.stack.drop (rule r).rhs.length).length + 1 < i) :
    (s.yyvs i).svConds = [] := by
  have hleaves := ht.leaves
  simp only [Yyparse.leaves, Bool.or_eq_true, decide_eq_true_eq, hstart, false_or, Bool.and_eq_true,
    Bool.not_eq_true', List.contains_iff_mem, htop] at hleaves
  obtain ⟨hq, htail⟩ := hleaves
  by_cases habove : p.stack.length < i
  · exact hs.stale (by simpa using hq) i habove
  · rw [List.length_drop] at hi
    obtain ⟨j, rfl⟩ : ∃ j, i = p.stack.length - (rule r).rhs.length + (j + 1) + 1 :=
      ⟨i - (p.stack.length - (rule r).rhs.length) - 2, by omega⟩
    set ws := ((p.stack.take (rule r).rhs.length).map Prod.snd).reverse with hws
    have hlt : j + 1 < ws.length := by
      have := ht.le
      rw [hws, List.length_reverse, List.length_map, List.length_take]
      omega
    have hj : ws[j + 1]? = some ws[j + 1] := List.getElem?_eq_getElem hlt
    rw [(hs.yyvs _ _ (values_getElem? (j + 1) ▸ hj)).2]
    exact tail_condsOf ht.fits htail _ (List.mem_of_getElem? (List.getElem?_tail.trans hj))

theorem Sim.reduce (hs : Sim N input s p) {r : Nat} (ht : Top N p r)
    (hstart : (rule r).lhs ≠ .start) :
    ∃ s', yyreduce s r = .next s' ∧ Sim N input s'
      ⟨(table.goto (Parser.top (p.stack.drop (rule r).rhs.length)) (rule r).lhs,
        (rule r).act ((p.stack.take (rule r).rhs.length).map Prod.snd).reverse)
          :: p.stack.drop (rule r).rhs.length, p.shifted⟩ := by
  have hworks := hs.works ht
  have hnone := parseTree_eq_none (fun h => hstart ((rule_checks r ht.mem).2.2.mpr h))
    fun m => s.yyvs (s.yyvsp + m - (rule r).rhs.length)
  rw [hnone] at hworks
  refine ⟨_, hs.yyreduce_eq ht hstart, ?_⟩
  constructor
  · exact congrArg (_ :: ·) (hs.yyss_drop ht.le)
  · have := holds_push (hs.below (rule r).rhs.length) hworks
    simpa using this
  · intro htop i hi
    rw [Parser.top_cons] at htop
    rw [List.length_cons] at hi
    change (Function.update s.yyvs _ _ i).svConds = []
    rw [Function.update_of_ne (by omega)]
    exact hs.stale_reduce ht hstart htop hi
  · exact hs.yychar
  · exact hs.yylval

/-- No state of the grammar shifts the token `error`: the first syntax error ends the parse. -/
theorem Sim.yyerrlab_eq (hs : Sim N input s p) (hp : Parser.Valid (grammar N) chart input p) :
    yyerrlab s = .abort := by
  have hnone : s.yyss.dropWhile (fun q => !shiftsError q) = [] := by
    rw [List.dropWhile_eq_nil_iff]
    intro q hq
    rw [hs.yyss, List.mem_append, List.mem_map, List.mem_singleton] at hq
    rw [(state_checks.1 q ?_).1, Bool.not_false]
    rcases hq with ⟨x, hx, rfl⟩ | rfl
    · exact List.mem_cons_of_mem _ (hp.mem (chart_sound N) x hx)
    · exact List.mem_cons_self
  simp only [yyerrlab, hnone]

/-- A round does what the tables say. -/
theorem yybackup_eq (hs : Sim N input s p) :
    yybackup N input s =
      let s' := if yypact.getD s.yystate 0 = yypactNinf then s else Yyparse.lookahead N input s
      match table.action (Parser.top p.stack) ((grammar N).kind (input p.shifted)) with
      | .shift q => yynewstate { s' with yychar := none } q s'.yylval
      | .reduce r => yyreduce s' r
      | .error => yyerrlab s' := by
  have haction : table.action (Parser.top p.stack) ((grammar N).kind (input p.shifted))
      = tableAction s.yystate (input p.shifted).terminal := by rw [hs.yystate_eq]; rfl
  have hstate : (Yyparse.lookahead N input s).yystate = s.yystate := by
    rw [hs.lookahead.yystate_eq, hs.yystate_eq]
  simp only [haction, yybackup, tableAction, hs.lookahead_yychar, Option.getD_some, yydefault,
    hstate]
  split_ifs <;> try rfl
  all_goals split <;> simp_all

/-- Nothing was read ahead, when the state on top came with a token. -/
def Fresh (s : Locals) (p : Lib.Parser Val) : Prop :=
  isTerminal (chart.symbol (Parser.top p.stack)) = true → s.yychar = none

/-- Without entries a state shifts nothing. -/
theorem entries_of_shift {q q' : Nat} {k : Terminal} (h : tableAction q k = .shift q') :
    yypact.getD q 0 ≠ yypactNinf := by
  intro hninf
  simp only [tableAction, if_pos hninf] at h
  split at h <;> cases h

/-- **A round of `yyparse` is a step of the parser with its tables.** -/
theorem yybackup_sim (hp : Parser.Valid (grammar N) chart input p) (hs : Sim N input s p)
    (hfresh : Fresh s p) :
    match Parser.step (grammar N) table input p with
    | .next p' => ∃ s', yybackup N input s = .next s' ∧ Sim N input s' p' ∧ Fresh s' p'
    | .accepted v n =>
        ∃ s', yybackup N input s = .accept s' ∧ s'.calls = n ∧ v = .tree s'.parseTree
    | .rejected => yybackup N input s = .abort := by
  have hmem := hp.top_mem (chart_sound N)
  have hallows := (chart_sound N).allows _ hmem (input p.shifted)
  have hround := yybackup_eq hs
  -- the variables once the token is there, if it is looked at
  have hs' : Sim N input (if yypact.getD s.yystate 0 = yypactNinf then s
      else Yyparse.lookahead N input s) p := by
    split
    · exact hs
    · exact hs.lookahead
  cases hmove : table.action (Parser.top p.stack) ((grammar N).kind (input p.shifted)) with
  | error =>
      rw [hmove] at hround
      simp only [Parser.step, hmove]
      exact hround.trans (hs'.yyerrlab_eq hp)
  | shift q =>
      rw [hmove] at hround hallows
      simp only [Parser.step, hmove]
      have hninf : yypact.getD s.yystate 0 ≠ yypactNinf :=
        hs.yystate_eq ▸ entries_of_shift hmove
      rw [if_neg hninf] at hs'
      simp only [if_neg hninf] at hround
      obtain ⟨s', hnext, hnone, hsim⟩ := hs'.shift hp hs.lookahead_yychar hallows
      exact ⟨s', hround.trans hnext, hsim, fun _ => hnone⟩
  | reduce r =>
      rw [hmove] at hround hallows
      have ht := top_of_valid hp hallows
      simp only [Parser.step, hmove]
      by_cases hstart : (rule r).lhs = .start
      · rw [if_pos (show (grammar N).lhs r = (grammar N).start from hstart)]
        obtain ⟨hninf, hsymbol⟩ := ((state_checks.1 _ hmem).2.2 r hallows).2.2 hstart
        rw [← hs.yystate_eq] at hninf
        simp only [if_pos hninf] at hround
        obtain ⟨s', hacc, hcalls, htree⟩ := hs.reduce_start ht hstart (hfresh hsymbol)
        exact ⟨s', hround.trans hacc, hcalls, htree⟩
      · rw [if_neg (show ¬ (grammar N).lhs r = (grammar N).start from hstart)]
        obtain ⟨s', hnext, hsim⟩ := hs'.reduce ht hstart
        refine ⟨s', hround.trans hnext, hsim, fun hterminal => ?_⟩
        -- a reduction ends with a nonterminal on top
        have hsymbol := congrArg isTerminal (ht.edge hstart).2
        exact absurd (hsymbol.symm.trans hterminal) Bool.false_ne_true

/-- What a run returns. -/
def Returns : Option (Parser.Outcome Val) → Option Result → Prop
  | none, o => o = none
  | some (.accepted v n), o => ∃ t, v = .tree t ∧ o = some (.accepted t n)
  | some .rejected, o => o = some .syntaxError
  | some (.next _), _ => False

theorem Returns.accepted_iff {o : Option (Parser.Outcome Val)} {o' : Option Result}
    {tree : Option TreeNode} {n : Nat} (h : Returns o o') :
    o' = some (.accepted tree n) ↔ o = some (.accepted (.tree tree) n) := by
  match o, h with
  | none, h =>
      obtain rfl : o' = none := h
      simp
  | some (.accepted v m), ⟨t, hv, ho⟩ => simp [hv, ho]
  | some .rejected, h =>
      obtain rfl : o' = some .syntaxError := h
      simp

theorem loop_sim : ∀ {fuel : Nat} {s : Locals} {p : Lib.Parser Val},
    Parser.Valid (grammar N) chart input p → Sim N input s p → Fresh s p →
    Returns (Parser.run (grammar N) table input fuel p) (loop N input fuel s)
  | 0, _, _, _, _, _ => rfl
  | fuel + 1, s, p, hp, hs, hfresh => by
      have hsim := yybackup_sim hp hs hfresh
      have hsound := Parser.step_sound (chart_sound N) hp
      rw [Parser.run, loop]
      cases hstep : Parser.step (grammar N) table input p with
      | next p' =>
          rw [hstep] at hsim hsound
          obtain ⟨s', hround, hs', hfresh'⟩ := hsim
          rw [hround]
          exact loop_sim hsound.1 hs' hfresh'
      | accepted v n =>
          rw [hstep] at hsim
          obtain ⟨s', hround, rfl, rfl⟩ := hsim
          rw [hround]
          exact ⟨_, rfl, rfl⟩
      | rejected =>
          rw [hstep] at hsim
          rw [hsim]
          rfl

end Yyparse

/-- What `yylex` returns when a text has these tokens. -/
abbrev Yyparse.stream (tokens : List Token) (i : Nat) : Token := tokens.getD i .tEof

open Yyparse Grammar

variable {N : Numerals} {parseTree tree : Option TreeNode} {tokens : List Token} {n : Nat}

theorem yyparse_sim : Returns
    (Parser.run (grammar N) table (stream tokens) (9 * (tokens.length + 1)) ⟨[], 0⟩)
    (yyparse N parseTree tokens) :=
  loop_sim Parser.valid_init (sim_init parseTree) fun _ => rfl

theorem stream_ends (i : Nat) (hi : tokens.length ≤ i) :
    (grammar N).kind (stream tokens i) = .tEof := by
  rw [stream, List.getD_eq_getElem?_getD, List.getElem?_eq_none hi]
  rfl

theorem run_accepts_iff {v : Val} :
    Parser.run (grammar N) table (stream tokens) (9 * (tokens.length + 1)) ⟨[], 0⟩
        = some (.accepted v n)
      ↔ (grammar N).Sentence (Parser.tokens (stream tokens) n) v := by
  have hfuel : (tokens.length + 1) * (chart.maxRank + 1) = 9 * (tokens.length + 1) :=
    Nat.mul_comm ..
  exact Parser.run_iff (chart_sound N) (plan_complete N) stream_ends hfuel.le

/-- **`yyparse` decides the grammar**: it accepts with a tree after `n` calls of `yylex` exactly if
the first `n` tokens are a sentence with this tree. -/
theorem yyparse_accepts_iff : yyparse N parseTree tokens = some (.accepted tree n) ↔
    (grammar N).Sentence (Parser.tokens (stream tokens) n) (.tree tree) :=
  yyparse_sim.accepted_iff.trans run_accepts_iff

/-- **`yyparse` always returns**, within nine rounds for each token and without running out of room:
with a syntax error if no sentence comes first, and otherwise with the only tree of the only
sentence that comes first. -/
theorem yyparse_returns :
    (yyparse N parseTree tokens = some .syntaxError ∧
      ∀ n v, ¬ (grammar N).Sentence (Parser.tokens (stream tokens) n) v) ∨
    ∃ tree n, yyparse N parseTree tokens = some (.accepted tree n) ∧
      ∀ m v, (grammar N).Sentence (Parser.tokens (stream tokens) m) v → m = n ∧ v = .tree tree := by
  have hsim : Returns _ (yyparse N parseTree tokens) := yyparse_sim
  have hdistance : Parser.distance chart tokens.length (⟨[], 0⟩ : Lib.Parser Val)
      < 9 * (tokens.length + 1) := by
    have hmax : chart.maxRank = 8 := rfl
    simp only [Parser.distance, hmax]
    omega
  rcases Parser.run_total (chart_sound N) stream_ends Parser.valid_init hdistance with
    hrun | ⟨v, n, hrun⟩
  · rw [hrun] at hsim
    refine .inl ⟨hsim, fun m w hw => ?_⟩
    have := run_accepts_iff.mpr hw
    rw [hrun] at this
    cases this
  · rw [hrun] at hsim
    obtain ⟨tree, rfl, heq⟩ := hsim
    refine .inr ⟨tree, n, heq, fun m w hw => ?_⟩
    have := run_accepts_iff.mpr hw
    rw [hrun] at this
    simpa [eq_comm, and_comm] using this

end Rucbase
