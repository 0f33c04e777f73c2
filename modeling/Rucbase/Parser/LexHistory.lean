import Rucbase.Parser.Lex

/-!
# One lexer for all requests

`BEGIN` sets a global, and neither `yy_scan_string` nor `yyparse` sets it back; so a request starts
in the start condition in which the last one was left. `yyparse` may stop before the end of its
text. What the start condition depends on is described here without it: a comment is read as one
piece up to its `*/`, and is left open if there is none.
-/

namespace Rucbase

open Lib

/-- How far `yyparse` reads: whether it asks for another token once it has some. It always asks for
the first one, since its first state has no default action. -/
structure Parser where
  asks : List Token → Bool
  first : asks [] = true

namespace Parser

open Lexer

/-- `yy_scan_string`, `yyparse` and `yy_delete_buffer` on one request: the start condition behind
it. -/
def request (p : Parser) (s : StartCondition) (text : List Char) : StartCondition :=
  if p.asks [] then (pull rules .tEof p.asks text.length [] s text).2 else s

/-- The start condition after some requests. -/
def after (p : Parser) (history : List (List Char)) : StartCondition :=
  history.foldl p.request .initial

/-! ## Comments as pieces of text -/

/-- The text behind the first `*/`. -/
def afterComment : List Char → Option (List Char)
  | [] => none
  | c :: text =>
      match c, text with
      | '*', '/' :: rest => some rest
      | _, _ => afterComment text

/-- Reading a text by the rules of `INITIAL` ends inside a comment. -/
def opens (initial : List LexRule) (asks : List Token → Bool) :
    Nat → List Token → List Char → Bool
  | 0, _, _ => false
  | _, _, [] => false
  | fuel + 1, seen, c :: text =>
      let rest := (c :: text).drop (lexeme initial (c :: text)).1
      match (lexeme initial (c :: text)).2 with
      | .skip => opens initial asks fuel seen rest
      | .begin _ =>
          match afterComment rest with
          | none => true
          | some behind => opens initial asks fuel seen behind
      | .emit t => asks (seen ++ [t]) && opens initial asks fuel (seen ++ [t]) rest

/-- A request leaves a comment open. `isOpen` says if one was open before it. -/
def leavesOpen (p : Parser) (isOpen : Bool) (text : List Char) : Bool :=
  if isOpen then
    match afterComment text with
    | none => true
    | some behind => opens initialRules p.asks behind.length [] behind
  else opens initialRules p.asks text.length [] text

/-- Some requests leave a comment open. -/
def leftOpen (p : Parser) (history : List (List Char)) : Bool :=
  history.foldl p.leavesOpen false

/-- The start condition that says whether a comment is open. -/
def startOf (isOpen : Bool) : StartCondition := if isOpen then .stateComment else .initial

variable {p : Parser} {asks : List Token → Bool} {text rest : List Char} {c : Char} {fuel : Nat}
  {seen : List Token}

theorem length_afterComment (h : afterComment text = some rest) : rest.length < text.length := by
  induction text with
  | nil => exact absurd h (by simp [afterComment])
  | cons c text ih =>
      unfold afterComment at h
      split at h
      · obtain rfl := Option.some.inj h
        exact Nat.lt_succ_of_lt (Nat.lt_succ_self _)
      · exact Nat.lt_succ_of_lt (ih h)

/-- In a comment, a character is skipped unless it begins the end. -/
theorem lexeme_comment (h : ¬ (c = '*' ∧ text.head? = some '/')) :
    lexeme commentRules (c :: text) = (1, .skip) := by
  have hlit : lit ['*', '/'] (c :: text) = 0 := by
    refine if_neg fun hpre => h ?_
    obtain ⟨rest, hrest⟩ := List.isPrefixOf_iff_prefix.mp hpre
    rw [List.cons_append, List.cons_append, List.cons.injEq] at hrest
    exact ⟨hrest.1.symm, by rw [← hrest.2]; rfl⟩
  by_cases hc : c = '*'
  · subst hc
    simp [lexeme, commentRules, pick, hlit, ignore, one]
  · simp [lexeme, commentRules, pick, hlit, ignore, one, hc]

/-- The end of a comment. -/
theorem lexeme_commentEnd : lexeme commentRules ('*' :: '/' :: text) = (2, .begin .initial) := by
  simp [lexeme, commentRules, pick, lit, ignore, one]

theorem afterComment_cons (h : ¬ (c = '*' ∧ text.head? = some '/')) :
    afterComment (c :: text) = afterComment text := by
  conv_lhs => unfold afterComment
  split
  · exact absurd ⟨rfl, rfl⟩ h
  · rfl

/-- **A comment that is open** is read to its end, or to the end of the text. -/
theorem pull_comment (h : text.length ≤ fuel) :
    pull rules .tEof asks fuel seen .stateComment text
      = match afterComment text with
        | none => (seen ++ [.tEof], .stateComment)
        | some rest => pull rules .tEof asks rest.length seen .initial rest := by
  induction text generalizing fuel with
  | nil => cases fuel <;> rfl
  | cons c text ih =>
      cases fuel with
      | zero => exact absurd h (by simp)
      | succ fuel =>
          rw [List.length_cons] at h
          by_cases hend : c = '*' ∧ text.head? = some '/'
          · obtain ⟨rfl, hslash⟩ := hend
            obtain ⟨rest, rfl⟩ : ∃ rest, text = '/' :: rest := by
              cases text with
              | nil => exact absurd hslash (by simp)
              | cons d rest => exact ⟨rest, by rw [Option.some.inj hslash]⟩
            have hfuel : rest.length ≤ fuel := by
              rw [List.length_cons] at h
              omega
            simp only [pull, rules, lexeme_commentEnd]
            exact pull_fuel hfuel (Nat.le_refl _)
          · rw [afterComment_cons hend]
            simp only [pull, rules, lexeme_comment hend]
            exact ih (by omega)

/-- Outside comments, the only change of the start condition is the beginning of a comment. -/
theorem lexeme_initial {s : StartCondition} (h : (lexeme initialRules text).2 = .begin s) :
    s = .stateComment := by
  have hall : ∀ r ∈ initialRules, ∀ matched, r.act matched = .begin s → s = .stateComment := by
    intro r hr matched hact
    simp only [initialRules, List.mem_append, List.mem_cons, List.mem_map, List.not_mem_nil,
      or_false, ignore] at hr
    rcases hr with ((rfl | rfl | rfl | rfl) | ⟨w, _, rfl⟩) | rfl | rfl | rfl | rfl | rfl | rfl | rfl
        | rfl | rfl
    · exact (Action.begin.inj hact).symm
    all_goals exact absurd hact (by simp [keyword])
  rcases lexeme_act initialRules text with hskip | ⟨r, hr, matched, hact⟩
  · rw [hskip] at h
    exact absurd h (by simp)
  · exact hall r hr matched (hact ▸ h)

theorem opens_nil : opens initialRules asks fuel seen [] = false := by
  cases fuel <;> rfl

/-- **Where the reading of a text ends**, as the pieces say. -/
theorem pull_initial (h : text.length ≤ fuel) :
    (pull rules .tEof asks fuel seen .initial text).2
      = startOf (opens initialRules asks fuel seen text) := by
  induction fuel generalizing seen text with
  | zero =>
      obtain rfl := List.eq_nil_of_length_eq_zero (Nat.le_zero.mp h)
      rw [pull_nil, opens_nil]
      rfl
  | succ fuel ih =>
      cases text with
      | nil =>
          rw [pull_nil, opens_nil]
          rfl
      | cons c text =>
          have hpos : 0 < (lexeme initialRules (c :: text)).1 := lexeme_pos
          have hrest : ((c :: text).drop (lexeme initialRules (c :: text)).1).length ≤ fuel := by
            rw [List.length_cons] at h
            rw [List.length_drop, List.length_cons]
            omega
          simp only [pull, opens, rules]
          cases hact : (lexeme initialRules (c :: text)).2 with
          | skip => exact ih hrest
          | emit t =>
              dsimp only
              cases asks (seen ++ [t]) with
              | false => rfl
              | true => exact ih hrest
          -- behind the end of a comment the text starts afresh; without an end nothing follows
          | begin s =>
              obtain rfl := lexeme_initial hact
              dsimp only
              rw [pull_comment hrest]
              cases hend : afterComment ((c :: text).drop (lexeme initialRules (c :: text)).1) with
              | none => rfl
              | some behind =>
                  have hbehind : behind.length ≤ fuel := by
                    have := length_afterComment hend
                    omega
                  dsimp only
                  rw [pull_fuel (Nat.le_refl _) hbehind, ih hbehind]

theorem request_startOf (b : Bool) : p.request (startOf b) text = startOf (p.leavesOpen b text) := by
  unfold request
  rw [if_pos p.first]
  cases b with
  | false => exact pull_initial (Nat.le_refl _)
  | true =>
      show (pull rules .tEof p.asks text.length [] .stateComment text).2 = _
      rw [pull_comment (Nat.le_refl _)]
      unfold leavesOpen
      cases hend : afterComment text with
      | none => simp [startOf]
      | some behind => exact pull_initial (Nat.le_refl _)

/-- **The start condition after some requests** says whether they left a comment open. -/
theorem after_eq (p : Parser) (history : List (List Char)) :
    p.after history = startOf (p.leftOpen history) := by
  have hrun : ∀ b, history.foldl p.request (startOf b) = startOf (history.foldl p.leavesOpen b) := by
    induction history with
    | nil => exact fun _ => rfl
    | cons text history ih =>
        intro b
        rw [List.foldl_cons, List.foldl_cons, request_startOf, ih]
  exact hrun false

/-- What a later text is for the lexer: in an open comment, only what is behind its end. -/
theorem scan_stateComment : scan .stateComment text
    = match afterComment text with
      | none => [.tEof]
      | some rest => scan .initial rest := by
  unfold scan
  rw [pull_comment (Nat.le_refl _)]
  cases afterComment text with
  | none => rfl
  | some rest => rfl

/-- **Scanning depends on earlier requests** if and only if they left a comment open. -/
theorem scan_independent_iff (p : Parser) (history : List (List Char)) :
    (∀ text, scan (p.after history) text = scan .initial text) ↔ p.leftOpen history = false := by
  rw [after_eq]
  constructor
  · intro h
    by_contra hopen
    have hhelp := h "help".toList
    rw [Bool.not_eq_false] at hopen
    rw [hopen] at hhelp
    change scan .stateComment "help".toList = _ at hhelp
    rw [scan_stateComment] at hhelp
    exact absurd hhelp (by decide +kernel)
  · intro h text
    rw [h]
    rfl

/-- **One `/*` without an end** and every later request is read as empty. -/
theorem comment_outlives_request :
    scan (Parser.after ⟨List.isEmpty, rfl⟩ ["/*".toList]) "help".toList = [.tEof]
      ∧ scan .initial "help".toList = [.keyword .HELP, .tEof] := by
  decide +kernel

end Parser

end Rucbase
