import RakuTree.Arena.Thread

/-!
# RakuTree.Arena.Check

Checking that the token chain of a tree covers a source: token follows token
without gap or overlap, and each has the text the source has there.

`validate` looks at the chain only. `checkInvariants` also looks at the links in
both directions and at the parents, and threads the tree once more to see that
nothing changes.
-/

namespace RakuTree.Arena

/-- Why a chain does not cover a source (`Arena.validate`). -/
inductive ChainError
  /-- A `token` starts at `start` and not where the one before it ended, at `expected`. -/
  | displaced (token : String) (start expected : Int)
  /-- A `token` has another text than the source has in its range. -/
  | altered (token : String)
  /-- The chain ends at `position`, and the source at `length`. -/
  | incomplete (position : Int) (length : Nat)
  /-- A token of no `Kind` has no text to compare. -/
  | textless
  deriving Repr, DecidableEq

/-- The message of a `ChainError`, if it has one. -/
def ChainError.message? : ChainError → Option String
  | displaced token start expected =>
    some (token ++ " starts at " ++ toString start ++ ", expected " ++ toString expected)
  | altered token => some (token ++ " does not match the source text")
  | incomplete position length =>
    some ("Stream ends at " ++ toString position ++ ", source has " ++ toString length ++
      " characters")
  | textless => none

/-- Checks a row of tokens from offset `position` on. -/
def checkRow (a : Arena) (src : Text) (position : Int) : List NodeId → Except ChainError Unit
  | [] =>
    if position = src.length then .ok () else .error (.incomplete position src.length)
  | i :: rest =>
    let n := a.node i
    if n.start ≠ position then .error (.displaced (a.describe i) n.start position)
    else if n.kind?.isNone then .error .textless
    else if n.content ≠ Text.slice src n.start n.stop then .error (.altered (a.describe i))
    else checkRow a src n.stop rest

/-- Checks that the chain under node `i` covers a source. -/
def validate (a : Arena) (i : NodeId) (src : Text) : Except ChainError Unit :=
  a.checkRow src 0 (a.stream i)

/-- Why a tree is not as it should be (`Arena.checkInvariants`). -/
inductive InvariantError
  /-- The chain does not cover the source, by `Arena.validate`. -/
  | chain (e : ChainError)
  /-- The tree cannot be threaded, by `Arena.thread`. -/
  | thread (e : ThreadError)
  /-- Links disagree: of the chain, of parents, or with those that threading makes. -/
  | links
  deriving Repr, DecidableEq

/-- Are neighbours of a row linked both ways, by `next` and `previous`? -/
def linkedRow (a : Arena) : List NodeId → Bool
  | i :: j :: rest => (a.node i).next == j && (a.node j).previous == i && linkedRow a (j :: rest)
  | _ => true

/-- The links of the nodes under node `i`. -/
def links (a : Arena) (i : NodeId) : List (NodeId × NodeId × NodeId) :=
  (a.walk i).map fun j => ((a.node j).next, (a.node j).previous, (a.node j).parent)

/-- Checks everything that holds of a document that was just built: the chain (`validate`), the
links both ways, the parents, and that threading again changes nothing. -/
def checkInvariants (a : Arena) (i : NodeId) (src : Text) : Except InvariantError Unit := do
  (a.validate i src).mapError .chain
  let tokens := a.stream i
  let isTiled := (tokens.flatMap fun j => (a.node j).content) == src
  let hasEnds := tokens.head?.all a.isStart && tokens.getLast?.all a.isEnd
  let hasParents := (a.walk i).all fun j => (a.node j).children.all fun k => (a.node k).parent == j
  if !(isTiled && a.linkedRow tokens && hasEnds && hasParents) then throw .links
  let (b, fault?) := a.thread i
  match fault? with
  | some e => throw (.thread e)
  | none =>
    if b.links i == a.links i && b.stream i == tokens then return
    else throw .links

end RakuTree.Arena
