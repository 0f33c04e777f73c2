import Rucbase.Lib.Scanner

/-!
# The lexer

`parser/lex.l`, rule by rule. A text is a list of characters, one for each byte of the request; the
end of the list is where `yy_scan_string` stops. A token keeps the text its value is computed from
by `atoi` or `atof`.
-/

namespace Rucbase

open Lib

/-- The start conditions: `INITIAL`, and `STATE_COMMENT`, which is exclusive. -/
inductive StartCondition where
  | initial
  | stateComment
deriving DecidableEq, Repr

/-- The keywords, as `parser/yacc.y` calls their tokens. -/
inductive Keyword where
  | SHOW
  | TXN_BEGIN
  | TXN_COMMIT
  | TXN_ABORT
  | TXN_ROLLBACK
  | TABLES
  | CREATE
  | TABLE
  | DROP
  | DESC
  | INSERT
  | INTO
  | VALUES
  | DELETE
  | FROM
  | WHERE
  | UPDATE
  | SET
  | SELECT
  | INT
  | CHAR
  | FLOAT
  | INDEX
  | AND
  | JOIN
  | EXIT
  | HELP
deriving DecidableEq, Repr

/-- The tokens of `parser/yacc.y`. -/
inductive Token where
  | keyword (k : Keyword)
  | geq
  | leq
  | neq
  | op (c : Char)
  | identifier (text : List Char)
  | valueInt (text : List Char)
  | valueFloat (text : List Char)
  | valueString (text : List Char)
  | tEof
deriving DecidableEq, Repr

abbrev LexRule := Rule Char StartCondition Token

namespace Lexer

def isAlpha (c : Char) : Bool := ('a' ≤ c && c ≤ 'z') || ('A' ≤ c && c ≤ 'Z')

def isDigit (c : Char) : Bool := '0' ≤ c && c ≤ '9'

def isBlank (c : Char) : Bool := c == ' ' || c == '\t'

/-- `.`: anything but a new line. -/
def isDot (c : Char) : Bool := c != '\n'

/-! ## Patterns: the length of the longest match -/

/-- The characters at the front that satisfy `p`: `p*`. -/
def star (p : Char → Bool) (text : List Char) : Nat := (text.takeWhile p).length

/-- One character that satisfies `p`. -/
def one (p : Char → Bool) : List Char → Nat
  | c :: _ => if p c then 1 else 0
  | [] => 0

/-- A fixed text without letters. -/
def lit (w text : List Char) : Nat := if w.isPrefixOf text then w.length else 0

/-- A fixed text, in either case. -/
def word (w : String) (text : List Char) : Nat :=
  if (w.toList.map Char.toLower).isPrefixOf (text.map Char.toLower) then w.length else 0

/-- `"--".*` -/
def lineComment : List Char → Nat
  | '-' :: '-' :: text => 2 + star isDot text
  | _ => 0

/-- `new_line`. -/
def newLine : List Char → Nat
  | '\r' :: '\n' :: _ => 2
  | '\r' :: _ => 1
  | '\n' :: _ => 1
  | _ => 0

/-- `single_op`. -/
def singleOp : List Char → Nat := one fun c => ";(),*=><.".toList.contains c

/-- `identifier`. -/
def identifier : List Char → Nat
  | c :: text => if isAlpha c then 1 + star (fun c => c == '_' || isAlpha c || isDigit c) text else 0
  | [] => 0

/-- `{sign}?` -/
def sign : List Char → Nat := one fun c => c == '+' || c == '-'

/-- `value_int`. -/
def valueInt (text : List Char) : Nat :=
  let digits := star isDigit (text.drop (sign text))
  if digits = 0 then 0 else sign text + digits

/-- `value_float`. -/
def valueFloat (text : List Char) : Nat :=
  match text.drop (valueInt text) with
  | '.' :: rest => if valueInt text = 0 then 0 else valueInt text + 1 + star isDigit rest
  | _ => 0

/-- `value_string`. -/
def valueString : List Char → Nat
  | '\'' :: text =>
      match text.drop (star (· != '\'') text) with
      | _ :: _ => star (· != '\'') text + 2
      | [] => 0
  | _ => 0

/-! ## Rules -/

/-- A rule without a token. -/
def ignore (len : List Char → Nat) : LexRule := ⟨len, fun _ => .skip⟩

/-- A keyword. -/
def keyword (w : String × Keyword) : LexRule := ⟨word w.1, fun _ => .emit (.keyword w.2)⟩

def keywords : List (String × Keyword) :=
  [("SHOW", .SHOW), ("BEGIN", .TXN_BEGIN), ("COMMIT", .TXN_COMMIT), ("ABORT", .TXN_ABORT),
    ("ROLLBACK", .TXN_ROLLBACK), ("TABLES", .TABLES), ("CREATE", .CREATE), ("TABLE", .TABLE),
    ("DROP", .DROP), ("DESC", .DESC), ("INSERT", .INSERT), ("INTO", .INTO), ("VALUES", .VALUES),
    ("DELETE", .DELETE), ("FROM", .FROM), ("WHERE", .WHERE), ("UPDATE", .UPDATE), ("SET", .SET),
    ("SELECT", .SELECT), ("INT", .INT), ("CHAR", .CHAR), ("FLOAT", .FLOAT), ("INDEX", .INDEX),
    ("AND", .AND), ("JOIN", .JOIN), ("EXIT", .EXIT), ("HELP", .HELP)]

/-- The rules of `INITIAL`. -/
def initialRules : List LexRule :=
  [⟨lit ['/', '*'], fun _ => .begin .stateComment⟩, ignore lineComment, ignore (star isBlank),
    ignore newLine]
  ++ keywords.map keyword
  ++ [⟨lit ['>', '='], fun _ => .emit .geq⟩, ⟨lit ['<', '='], fun _ => .emit .leq⟩,
    ⟨lit ['<', '>'], fun _ => .emit .neq⟩, ⟨singleOp, fun text => .emit (.op (text.headD ' '))⟩,
    ⟨identifier, fun text => .emit (.identifier text)⟩,
    ⟨valueInt, fun text => .emit (.valueInt text)⟩,
    ⟨valueFloat, fun text => .emit (.valueFloat text)⟩,
    ⟨valueString, fun text => .emit (.valueString text.tail.dropLast)⟩, ignore (one isDot)]

/-- The rules of `STATE_COMMENT`. -/
def commentRules : List LexRule :=
  [⟨lit ['*', '/'], fun _ => .begin .initial⟩, ignore (one (· != '*')), ignore (one (· == '*'))]

def rules : StartCondition → List LexRule
  | .initial => initialRules
  | .stateComment => commentRules

/-- The tokens of a text, up to `T_EOF`, when the start condition is `s` at its beginning. -/
def scan (s : StartCondition) (text : List Char) : List Token :=
  (pull rules .tEof (fun _ => true) text.length [] s text).1

example : scan .initial "select * from t where a>=-5 -- all\n;".toList
    = [.keyword .SELECT, .op '*', .keyword .FROM, .identifier ['t'], .keyword .WHERE,
      .identifier ['a'], .geq, .valueInt "-5".toList, .op ';', .tEof] := by decide +kernel

end Lexer

end Rucbase
