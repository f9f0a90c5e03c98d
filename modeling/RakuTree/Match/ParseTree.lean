import RakuTree.Match.Basic

/-!
# RakuTree.Match.ParseTree

Parse trees of another parser as matches. A rule becomes a match whose captures are
its children, each under the name of its rule. Tokens only become captures when an
alias names them, which keeps punctuation out of shapes.

A rule that matched nothing has no position of its own. It is put where the tree
has got to (`cursor`), so its match is empty and lies between its neighbours.
-/

namespace RakuTree

/-- A parse tree, before `Naming` says how its parts are captured. -/
inductive ParseTree
  /-- A rule with its `range`, which is missing when it matched nothing. -/
  | rule (name : String) (range : Option (Int × Int)) (children : List ParseTree)
  /-- A token of some `type`, from `start` to `stop`. -/
  | token (type : String) (start stop : Int)
  /-- An optional part that is missing. -/
  | missing

/-- How the children of a `ParseTree` become captures. -/
structure Naming where
  /-- Names to use instead of the names of rules and token types (`key`). -/
  aliases : List (String × String)
  /-- Names whose captures are `Capture.many` even if there is only one match. -/
  lists : List String
  /-- Names whose matches become `Match.operands`. -/
  positional : List String

namespace Naming

/-- The name to capture a rule or token type under: its alias, or `name` itself. -/
def key (n : Naming) (name : String) : String := (n.aliases.lookup name).getD name

/-- The captures with `m` added under `key`. A second match under the same name makes a list. -/
def addTo (n : Naming) (key : String) (m : Match) :
    List (String × Capture) → List (String × Capture)
  | [] => [(key, if n.lists.contains key then .many [m] else .one m)]
  | (k, c) :: rest =>
    if k = key then (k, .many (c.toList ++ [m])) :: rest else (k, c) :: addTo n key m rest

/-- Matches with their names, sorted into named captures and, for names in `positional`, operands.
-/
def capture (n : Naming) (named : List (String × Match)) : List (String × Capture) × List Match :=
  ((named.filter fun p => !n.positional.contains p.1).foldl (fun h p => n.addTo p.1 p.2 h) [],
   (named.filter fun p => n.positional.contains p.1).map Prod.snd)

end Naming

namespace ParseTree

mutual

/-- A parse tree as a match, put at `cursor` if it matched nothing. -/
def toMatch (n : Naming) (cursor : Int) : ParseTree → Match
  | rule name range children =>
    let start := (range.map Prod.fst).getD cursor
    let stop := (range.map Prod.snd).getD cursor
    let (named, operands) := n.capture (namedMatches n start children)
    .node start stop named operands (some name)
  | token type start stop => .node start stop [] [] (some type)
  | missing => .node cursor cursor [] [] none

/-- The children that count, each with the name it is captured under. A rule without a range stands
at `cursor`, where the children before it end. -/
def namedMatches (n : Naming) (cursor : Int) : List ParseTree → List (String × Match)
  | [] => []
  | missing :: ks => namedMatches n cursor ks
  | token type start stop :: ks =>
    if (n.aliases.lookup type).isSome then
      (n.key type, .node start stop [] [] (some type)) :: namedMatches n stop ks
    else namedMatches n stop ks
  | rule name range children :: ks =>
    let m := toMatch n cursor (rule name range children)
    (n.key name, m) :: namedMatches n (max cursor m.stop) ks

end

end ParseTree

end RakuTree
