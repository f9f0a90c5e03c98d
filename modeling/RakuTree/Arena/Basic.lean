import RakuTree.Gap

/-!
# RakuTree.Arena.Basic

Nodes with links. Once a tree is complete its nodes are numbered and put into a
table, where each node knows the next and the previous token and its parent. A link
that leads nowhere leads back to the node itself:

* a token whose `next` is itself is the last of the chain;
* a token whose `previous` is itself is the first of the chain;
* a node whose `parent` is itself is a root.

Nodes are addressed by number, so a node can move and its range can change without
anything else noticing. Ranges are plain integers here: editing may leave them out
of order. A table may even have a node in two child lists, so everything that goes
down or up a table carries a bound on its depth, the size of the table.
-/

namespace RakuTree

/-- The number of a node: its place in `Arena.nodes`. -/
abbrev NodeId := Nat

/-- A node in an `Arena`. Other nodes are named by their numbers. -/
structure Node where
  /-- The class of the node, which settles its `kind?`. -/
  cls : Class
  /-- Where the node starts, as `Span.start`. -/
  start : Int
  /-- Where the node ends, as `Span.stop`. -/
  stop : Int
  /-- The text it carries itself; empty for a branch. -/
  content : Text
  /-- The key of the production that made it, if there was one. -/
  origin : Option String
  /-- The parts of a quote, as in `Leaf.quoting`. -/
  quoting : Quoting
  /-- The next token of the chain; behind the last one, the node itself. -/
  next : NodeId
  /-- The token before it in the chain; in front of the first one, the node itself. -/
  previous : NodeId
  /-- The node that has it as a child; for a root, the node itself. -/
  parent : NodeId
  /-- The children, in order; none for a leaf (`Kind.leaf`). -/
  children : List NodeId
  deriving Repr

/-- The node that `Arena.node` looks up where there is none: of no kind, at the root. -/
instance : Inhabited Node := ⟨⟨.element, 0, 0, [], none, {}, 0, 0, 0, []⟩⟩

namespace Node

/-- The `Kind` of a node, by its class. -/
def kind? (n : Node) : Option Kind := n.cls.kind?

/-- Does the node stand in the token chain? All but branches do (`Kind.branch`). -/
def isToken (n : Node) : Bool := n.kind? != some .branch

/-- Can the node have children, being a `branch` or a `contextualizer`? -/
def isParent (n : Node) : Bool := n.kind? == some .branch || n.kind? == some .contextualizer

/-- The text that a node contributes to the text of the nodes above it; a node of no `Kind` has
none. -/
def ownText? (n : Node) : Option Text := if n.kind?.isNone then none else some n.content

/-- Node number `i` for an element whose children have the given numbers. All links
lead back to the node. -/
def ofElement (i : NodeId) (e : Element) (children : List NodeId) : Node :=
  { cls := e.cls, start := e.start, stop := e.stop, content := e.content?.getD []
    origin := e.origin
    quoting := match e with
      | .leaf l => l.quoting
      | _ => {}
    next := i, previous := i, parent := i, children }

end Node

/-! ### Numbering a tree -/

namespace Element

mutual

/-- How many nodes a tree has, as `nodesFrom` numbers them. -/
def size : Element → Nat
  | leaf _ => 1
  | branch _ _ _ ks => 1 + sizeList ks
  | contextualizer _ _ _ _ ks => 1 + sizeList ks
  | bare _ _ => 1

/-- How many nodes some trees have, as `nodesFromList` numbers them. -/
def sizeList : List Element → Nat
  | [] => 0
  | k :: ks => k.size + sizeList ks

end

/-- The numbers of the roots of some trees that are numbered from `i` on, parents
first. -/
def rootIds (i : NodeId) : List Element → List NodeId
  | [] => []
  | k :: ks => i :: rootIds (i + k.size) ks

mutual

/-- The nodes of a tree, numbered from `i` on, parents first. -/
def nodesFrom (i : NodeId) : Element → List Node
  | leaf l => [Node.ofElement i (leaf l) []]
  | branch c s o ks =>
    Node.ofElement i (branch c s o ks) (rootIds (i + 1) ks) :: nodesFromList (i + 1) ks
  | contextualizer g s t o ks =>
    Node.ofElement i (contextualizer g s t o ks) (rootIds (i + 1) ks) :: nodesFromList (i + 1) ks
  | bare s o => [Node.ofElement i (bare s o) []]

/-- The nodes of some trees in a row, numbered from `i` on (`nodesFrom`). -/
def nodesFromList (i : NodeId) : List Element → List Node
  | [] => []
  | k :: ks => nodesFrom i k ++ nodesFromList (i + k.size) ks

end

end Element

/-! ### Tables -/

/-- A table of nodes, which may hold several trees. -/
structure Arena where
  /-- The nodes by number; `NodeId` is the index. -/
  nodes : Array Node
  deriving Repr

namespace Arena

/-- A table with the nodes of the tree `e`, whose root is node 0. -/
def ofElement (e : Element) : Arena := ⟨(e.nodesFrom 0).toArray⟩

/-- How many nodes there are; this is the next free number. -/
def size (a : Arena) : Nat := a.nodes.size

/-- Node number `i`. -/
def node (a : Arena) (i : NodeId) : Node := a.nodes[i]?.getD default

/-- Changes node `i`. -/
def update (a : Arena) (i : NodeId) (f : Node → Node) : Arena := ⟨a.nodes.modify i f⟩

/-- The table with the nodes of `e` added; its root gets the next free number. -/
def add (a : Arena) (e : Element) : Arena := ⟨a.nodes ++ (e.nodesFrom a.size).toArray⟩

/-- Sets the next token of node `i`. -/
def setNext (a : Arena) (i j : NodeId) : Arena := a.update i fun n => { n with next := j }

/-- Sets the token before node `i`. -/
def setPrevious (a : Arena) (i j : NodeId) : Arena := a.update i fun n => { n with previous := j }

/-- Sets the parent of node `i`. -/
def setParent (a : Arena) (i j : NodeId) : Arena := a.update i fun n => { n with parent := j }

/-- Sets the children of node `i`. -/
def setChildren (a : Arena) (i : NodeId) (ks : List NodeId) : Arena :=
  a.update i fun n => { n with children := ks }

/-- The table with `j` as the parent of all of `ks`. -/
def setParents (a : Arena) (ks : List NodeId) (j : NodeId) : Arena :=
  ks.foldl (fun a k => a.setParent k j) a

/-- Moves the range of node `i`. -/
def shift (a : Arena) (i : NodeId) (d : Int) : Arena :=
  a.update i fun n => { n with start := n.start + d, stop := n.stop + d }

/-- Moves the end of node `i`. -/
def grow (a : Arena) (i : NodeId) (d : Int) : Arena :=
  a.update i fun n => { n with stop := n.stop + d }

/-! ### Looking around -/

/-- Is node `i` a root? -/
def isRoot (a : Arena) (i : NodeId) : Bool := (a.node i).parent == i

/-- Is node `i` the first of its chain? -/
def isStart (a : Arena) (i : NodeId) : Bool := (a.node i).previous == i

/-- Is node `i` the last of its chain? -/
def isEnd (a : Arena) (i : NodeId) : Bool := (a.node i).next == i

/-- The nodes above node `i`, nearest first, at most `depth` of them. -/
def ancestorsWithin (a : Arena) : Nat → NodeId → List NodeId
  | 0, _ => []
  | depth + 1, i =>
    if a.isRoot i then [] else (a.node i).parent :: ancestorsWithin a depth (a.node i).parent

/-- The nodes above node `i`, nearest first. -/
def ancestors (a : Arena) (i : NodeId) : List NodeId := a.ancestorsWithin a.size i

/-- The root above node `i`. -/
def root (a : Arena) (i : NodeId) : NodeId := ((a.ancestors i).getLast?).getD i

/-- Node `i` and all that is under it down to `depth` levels, parents first. -/
def walkWithin (a : Arena) : Nat → NodeId → List NodeId
  | 0, _ => []
  | depth + 1, i => i :: (a.node i).children.flatMap (walkWithin a depth)

/-- Node `i` and all that is under it, parents first. -/
def walk (a : Arena) (i : NodeId) : List NodeId := a.walkWithin a.size i

/-- The tokens under node `i`, in document order. -/
def tokens (a : Arena) (i : NodeId) : List NodeId := (a.walk i).filter fun j => (a.node j).isToken

/-- Where everything that node `i` covers ends, looking down `depth` levels. -/
def outerEndWithin (a : Arena) : Nat → NodeId → Int
  | 0, i => (a.node i).stop
  | depth + 1, i =>
    let n := a.node i
    match n.kind?, n.children.getLast? with
    | some .contextualizer, some k => outerEndWithin a depth k
    | _, _ => n.stop

/-- Where everything that node `i` covers ends. -/
def outerEnd (a : Arena) (i : NodeId) : Int := a.outerEndWithin a.size i

/-- The text of node `i` and all that is under it; `none` when a node of no kind is
among them. -/
def text? (a : Arena) (i : NodeId) : Option Text :=
  ((a.walk i).mapM fun j => (a.node j).ownText?).map List.flatten

/-- The children of node `i` that are neither layout nor there for completeness
only. -/
def semanticChildren (a : Arena) (i : NodeId) : List NodeId :=
  (a.node i).children.filter fun k =>
    (a.node k).cls.isSemantic?.getD true && (a.node k).cls.isVisible?.getD true

/-- How a message shows node `i`. -/
def describe (a : Arena) (i : NodeId) : String :=
  let n := a.node i
  match n.kind? with
  | some .leaf => Element.label n.cls n.start n.stop (some n.content) none
  | some .branch => Element.label n.cls n.start n.stop none (some n.children.length)
  | some .contextualizer =>
    Element.label n.cls n.start (a.outerEnd i) (some n.content) (some n.children.length)
  | none => Element.label n.cls n.start n.stop none none

/-! ### The token chain -/

/-- The chain from token `i` on, at most `limit` tokens, and whether there were
more. -/
def chainFrom (a : Arena) : Nat → NodeId → List NodeId × Bool
  | 0, _ => ([], true)
  | limit + 1, i =>
    if a.isEnd i then ([i], false)
    else
      let (rest, more) := chainFrom a limit (a.node i).next
      (i :: rest, more)

/-- The chain from the first token under node `i` on, at most `limit` tokens, and
whether there were more. -/
def streamWithin (a : Arena) (limit : Nat) (i : NodeId) : List NodeId × Bool :=
  match a.tokens i with
  | [] => ([], false)
  | t :: _ => a.chainFrom limit t

/-- The chain from the first token under node `i` on. A chain without end is left
after it has gone round the table twice. -/
def stream (a : Arena) (i : NodeId) : List NodeId := (a.streamWithin (2 * a.size + 1) i).1

end Arena

end RakuTree
