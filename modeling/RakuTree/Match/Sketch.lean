import RakuTree.Match.Basic

/-!
# RakuTree.Match.Sketch

Matches made by hand. Each match is put where its text first occurs in the source,
and the usual chains of captures (a number, a variable, a call, a statement, a
document) have makers of their own.
-/

namespace RakuTree.Sketch

/-- Why a match cannot be made by `find` or `around`. -/
inductive Error
  /-- The text does not occur in the source from `start` on. -/
  | notFound (text src : Text) (start : Int)
  /-- There is nothing to span: `around` was given no parts. -/
  | nothingToSpan
  deriving Repr, DecidableEq

/-- The message of an `Error`, if it has one. -/
def Error.message? : Error → Option String
  | notFound text src start =>
    some (Text.quoted text ++ " not found in " ++ Text.quoted src ++ " after " ++ toString start)
  | nothingToSpan => none

/-- A table of named captures, for `Match.named`. -/
abbrev Captures := List (String × Capture)

/-- A match from `start` to `stop` with the given captures and operands. -/
def span (start stop : Int) (captures : Captures) (operands : List Match) : Match :=
  .node start stop captures operands none

/-- A match at `offset` that covers nothing. -/
def empty (offset : Int) : Match := span offset offset [] []

/-- A match over the first occurrence of `text` at or behind `start`. -/
def find (src text : Text) (start : Int) (captures : Captures) (operands : List Match) :
    Except Error Match :=
  match Text.find? src text start src.length with
  | some i => .ok (span i (i + text.length) captures operands)
  | none => .error (.notFound text src start)

/-- A match from the start of the first to the end of the last of `parts`. -/
def around (parts : List Match) (captures : Captures) : Except Error Match :=
  match parts, parts.getLast? with
  | first :: _, some last => .ok (span first.start last.stop captures [])
  | _, _ => .error .nothingToSpan

/-- A chain of matches over the same text: the innermost holds `captures`, and each
further one holds the one before it under the next of `keys`. -/
def chain (src text : Text) (start : Int) (captures : Captures) :
    List String → Except Error Match
  | [] => find src text start captures []
  | key :: keys => do
    let inner ← find src text start captures []
    chain src text start [(key, .one inner)] keys

/-- A plain decimal integer: the first occurrence of `text`. -/
def decint (src text : Text) (start : Int) : Except Error Match :=
  chain src text start [] ["decint"]

/-- A number as an expression. `kind` is its notation and `parts` are the captures
of that; a plain integer has the usual ones. -/
def number (src text : Text) (start : Int) (kind : String) (parts : Captures) :
    Except Error Match :=
  if kind = "integer" ∧ parts.isEmpty then
    chain src text start [] ["decint", kind, "numish", "number", "value"]
  else chain src text start parts [kind, "numish", "number", "value"]

/-- A variable as an expression: the first character of `text` is its sigil, the others are its
name. -/
def scalar (src text : Text) (start : Int) : Except Error Match := do
  let m ← find src text start [] []
  chain src text start
    [("sigil", .one (span m.start (m.start + 1) [] [])),
     ("desigilname", .one (span (m.start + 1) m.stop [] []))] ["variable"]

/-- A word: the first occurrence of `text`. -/
def identifier (src text : Text) (start : Int) : Except Error Match :=
  find src text start [] []

/-- A name: the first occurrence of `text`. -/
def longname (src text : Text) (start : Int) : Except Error Match :=
  chain src text start [] ["identifier", "name"]

/-- Two expressions joined by an infix `operator`, which is searched for behind the first one. -/
def binary (src operator : Text) (left right : Match) : Except Error Match := do
  let op ← find src operator left.stop [] []
  return span left.start right.stop [("infix", .one op), ("OPER", .one op)] [left, right]

/-- A call of `name` without parentheses, with or without an `argument`. -/
def call (src name : Text) (argument : Option Match) (start : Int) : Except Error Match := do
  let identifier ← find src name start [] []
  match argument with
  | none =>
    return span identifier.start identifier.stop
      [("identifier", .one identifier), ("args", .one (empty identifier.stop))] []
  | some e =>
    let arglist := span e.start e.stop [("EXPR", .one e)] []
    let args := span identifier.stop e.stop [("arglist", .one arglist)] []
    return span identifier.start e.stop [("identifier", .one identifier), ("args", .one args)] []

/-- The expression `e` as a statement, with its modifiers. -/
def statement (e : Match) (modifiers : Captures) : Match :=
  span e.start e.stop (("EXPR", .one e) :: modifiers) []

/-- Statements in a row; they end with the source unless `stop` says otherwise. -/
def statementlist (src : Text) (statements : List Match) (start : Int) (stop : Option Int) :
    Match :=
  span start (stop.getD src.length)
    (if statements.isEmpty then [] else [("statement", .many statements)]) []

/-- A match for the whole source, with `statements` in it. -/
def document (src : Text) (statements : List Match) : Match :=
  let list := if statements.isEmpty then empty 0 else statementlist src statements 0 none
  span 0 src.length [("statementlist", .one list)] []

end RakuTree.Sketch
