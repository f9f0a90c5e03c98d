import RakuTree.Arena.Thread

/-!
# RakuTree.Arena.Edit

Removing and inserting nodes. An edit first mends the chain where it cuts, then the
child lists, then all links under the root. With `ranges` set it also moves the
ranges of everything behind the place of the edit and resizes the nodes around it.
-/

namespace RakuTree.Arena

/-! ### Ranges -/

/-- Where to insert beside an anchor (`insertBeside`). -/
inductive Side
  /-- In front of the anchor. -/
  | before
  /-- Behind the anchor. -/
  | after
  deriving Repr, DecidableEq

/-- Where something beside `anchor` starts. -/
def placeBeside (a : Arena) (anchor : NodeId) : Side → Int
  | .before => (a.node anchor).start
  | .after => a.outerEnd anchor

/-- Moves every node under `root` that starts at or behind `place` by `d`, and
resizes the nodes of `enclosing`. The range of a contextualizer covers its sigil
only and is not resized. -/
def shiftFrom (a : Arena) (root : NodeId) (place d : Int) (enclosing : List NodeId) : Arena :=
  if d = 0 then a
  else
    (a.walk root).foldl
      (fun a i =>
        let n := a.node i
        if enclosing.contains i then
          if n.kind? = some .contextualizer then a else a.grow i d
        else if place ≤ n.start then a.shift i d
        else a)
      a

/-- Opens room for node `i` at `place` in the tree of `anchor`, and moves the node
there. -/
def moveTo (a : Arena) (i : NodeId) (place : Int) (anchor : NodeId) : Arena :=
  let width := a.outerEnd i - (a.node i).start
  let a := a.shiftFrom (a.root anchor) place width (a.ancestors anchor)
  let d := place - (a.node i).start
  (a.walk i).foldl (fun a j => a.shift j d) a

/-! ### The chain -/

/-- Links some tokens to one another in a row, by `next` and `previous`. -/
def linkRow (a : Arena) : List NodeId → Arena
  | i :: j :: rest => ((a.setNext i j).setPrevious j i).linkRow (j :: rest)
  | _ => a

/-- The first and the last of some tokens, if there is one; they are what `linkRow` leaves open. -/
def ends : List NodeId → Option (NodeId × NodeId)
  | [] => none
  | t :: ts => some (t, (t :: ts).getLast (by simp))

/-- The token before `i`, if there is one. -/
def before? (a : Arena) (i : NodeId) : Option NodeId :=
  if a.isStart i then none else some (a.node i).previous

/-- The token behind `i`, if there is one. -/
def after? (a : Arena) (i : NodeId) : Option NodeId :=
  if a.isEnd i then none else some (a.node i).next

/-- Cuts the tokens from `first` to `last` out of their chain and joins the ends. -/
def cutOut (a : Arena) (first last : NodeId) : Arena :=
  let joined := match a.before? first, a.after? last with
    | some b, some c => (a.setNext b c).setPrevious c b
    | some b, none => a.setNext b b
    | none, some c => a.setPrevious c c
    | none, none => a
  (joined.setPrevious first first).setNext last last

/-- Puts the tokens from `first` to `last` in front of token `i`. -/
def spliceBefore (a : Arena) (first last i : NodeId) : Arena :=
  let b := a.before? i
  let a := (a.setNext last i).setPrevious i last
  match b with
  | some b => (a.setNext b first).setPrevious first b
  | none => a.setPrevious first first

/-- Puts the tokens from `first` to `last` behind token `i`. -/
def spliceAfter (a : Arena) (first last i : NodeId) : Arena :=
  let c := a.after? i
  let a := (a.setNext i first).setPrevious first i
  match c with
  | some c => (a.setNext last c).setPrevious c last
  | none => a.setNext last last

/-- Cuts the tokens under node `i` out of their chain and leaves them linked in a row. -/
def cutTokens (a : Arena) (i : NodeId) : Arena :=
  let tokens := a.tokens i
  let a := a.linkRow tokens
  match ends tokens with
  | some (first, last) => a.cutOut first last
  | none => a

/-- Links the tokens under node `i` in a row and puts them into the chain beside those
of `anchor`. With `ranges` set the node moves there, too. -/
def insertTokens (a : Arena) (side : Side) (anchor i : NodeId) (ranges : Bool) : Arena :=
  let tokens := a.tokens i
  let a := a.linkRow tokens
  let anchorEnds := ends (a.tokens anchor)
  let a := if ranges then a.moveTo i (a.placeBeside anchor side) anchor else a
  match ends tokens, anchorEnds with
  | some (first, last), some (firstAnchor, lastAnchor) =>
    match side with
    | .before => a.spliceBefore first last firstAnchor
    | .after => a.spliceAfter first last lastAnchor
  | _, _ => a

/-! ### Edits -/

/-- Takes node `i` out of the children of its parent. -/
def detach (a : Arena) (i : NodeId) : Arena :=
  if a.isRoot i then a
  else
    let p := (a.node i).parent
    (a.setChildren p ((a.node p).children.erase i)).setParent i i

/-- Takes node `i` and all that is under it out of its tree. Its own links lead back
to itself. -/
def remove (a : Arena) (i : NodeId) (ranges : Bool) : Arena :=
  let a := a.cutTokens i
  let root := a.root i
  let ancestors := a.ancestors i
  let a := ((a.detach i).setNext i i).setPrevious i i
  if root = i then a
  else
    let width := a.outerEnd i - (a.node i).start
    let a := if ranges then a.shiftFrom root (a.outerEnd i) (-width) ancestors else a
    a.relink root

/-- Why a node cannot be inserted: by `strayAnchor`, the anchor is not among the children of its
parent. -/
inductive InsertError
  | strayAnchor
  deriving Repr, DecidableEq

/-- A list with `x` put beside the first `anchor` in it. -/
def insertBeside (side : Side) (anchor x : NodeId) : List NodeId → Option (List NodeId)
  | [] => none
  | k :: ks =>
    if k = anchor then
      match side with
      | .before => some (x :: k :: ks)
      | .after => some (k :: x :: ks)
    else (insertBeside side anchor x ks).map (k :: ·)

/-- Puts node `i` beside `anchor` among the children of its parent, unless the anchor
is a root. -/
def attach (a : Arena) (side : Side) (anchor i : NodeId) : Option Arena :=
  if a.isRoot anchor then some a
  else
    let p := (a.node anchor).parent
    let attached :=
      if (a.node p).isParent then
        (insertBeside side anchor i (a.node p).children).map (a.setChildren p ·)
      else some a
    attached.map fun a => a.setParent i (a.node anchor).parent

/-- Puts node `i` beside `anchor`: in the chain, and among the children of the
parent, unless the anchor is a root. What was done before an error stays. -/
def insert (a : Arena) (side : Side) (anchor i : NodeId) (ranges : Bool) :
    Arena × Option InsertError :=
  let a := a.insertTokens side anchor i ranges
  match a.attach side anchor i with
  | none => (a, some .strayAnchor)
  | some a => if a.isRoot anchor then (a, none) else (a.relink (a.root anchor), none)

end RakuTree.Arena
