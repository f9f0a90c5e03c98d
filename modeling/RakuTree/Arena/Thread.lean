import RakuTree.Arena.Basic

/-!
# RakuTree.Arena.Thread

Setting all links under a node, in two ways that come to the same.

* `thread` goes down the tree. It hands two things along: the last token so far,
  and the branches that wait for the next one.
* `relink` goes through the nodes in order, parents first, with the same two
  things. Edits use it to mend what they cut.

A branch's `next` is the first token at or behind it, its `previous` the last token
before it.
-/

namespace RakuTree.Arena

/-- Why a tree cannot be threaded: a node that starts at `offset` is of no kind. -/
structure ThreadError where
  /-- Where the node starts. -/
  offset : Int
  deriving Repr, DecidableEq

/-- The message of a `ThreadError`. -/
def ThreadError.message (e : ThreadError) : String :=
  Class.element.name ++ " at " ++ toString e.offset ++ " is neither leaf nor branch"

/-- The state of threading, between two nodes of the walk. -/
structure Threading where
  /-- The table so far. -/
  arena : Arena
  /-- The last token so far, which is to get the next one as its `next`. -/
  tail : Option NodeId := none
  /-- Branches that are to get the next token as their `next`. -/
  pending : List NodeId := []

namespace Threading

/-- Adds the token `i` to the chain. Every branch in `pending` gets to know it. -/
def link (t : Threading) (i : NodeId) : Threading :=
  let linked := match t.tail with
    | none => t.arena.setPrevious i i
    | some j => (t.arena.setNext j i).setPrevious i j
  { arena := t.pending.foldl (fun a b => a.setNext b i) (linked.setNext i i)
    tail := some i
    pending := [] }

/-- Adds the branch `i`: it follows the last token and waits for the next one. -/
def queue (t : Threading) (i : NodeId) : Threading :=
  { t with
    arena := (t.arena.setPrevious i (t.tail.getD i)).setNext i i
    pending := t.pending ++ [i] }

/-- Makes node `i` the parent of its children. -/
def adopt (t : Threading) (i : NodeId) : Threading :=
  { t with arena := t.arena.setParents (t.arena.node i).children i }

end Threading

/-- Threads node `i` and what is under it, down to `depth` levels. What was threaded
before a fault stays. -/
def visit : Nat → NodeId → EStateM ThreadError Threading Unit
  | 0, _ => pure ()
  | depth + 1, i => do
    let n := (← get).arena.node i
    match n.kind? with
    | some .leaf => modify (·.link i)
    | some .contextualizer =>
      modify fun t => (t.link i).adopt i
      n.children.forM (visit depth)
    | some .branch =>
      modify fun t => (t.queue i).adopt i
      n.children.forM (visit depth)
    | none => throw ⟨n.start⟩

/-- Sets all links under node `i`, which becomes a root. -/
def thread (a : Arena) (i : NodeId) : Arena × Option ThreadError :=
  match (visit a.size i).run { arena := a.setParent i i } with
  | .ok _ t => (t.arena, none)
  | .error e t => (t.arena, some e)

/-- One step of relinking: node `i` takes its place in the chain (`link` or `queue`), and its
children get it as their parent (`adopt`). -/
def relinkStep (t : Threading) (i : NodeId) : Threading :=
  let t := t.adopt i
  if (t.arena.node i).isToken then t.link i else t.queue i

/-- Sets all links under node `i`, except its own parent. -/
def relink (a : Arena) (i : NodeId) : Arena :=
  ((a.walk i).foldl relinkStep { arena := a }).arena

end RakuTree.Arena
