import RakuTree.Arena.Basic

/-!
# RakuTree.Arena.Fill

Filling the gaps of a tree that is in a table already. The gaps of one child list
are filled the same way as in a tree that is not; new tokens get the next free
numbers and no links.
-/

namespace RakuTree.Arena

/-- An item of a child list that is being filled by `GapSource.fillList`. -/
inductive Slot
  /-- A child that was there, node `i`. -/
  | old (i : NodeId)
  /-- A new token, not in the table yet. -/
  | new (l : Leaf)

/-- Adds the `new` tokens of a child list to the table, and numbers the list. -/
def settle (a : Arena) : List Slot → Arena × List NodeId
  | [] => (a, [])
  | .old i :: slots =>
    let (a, ids) := settle a slots
    (a, i :: ids)
  | .new l :: slots =>
    let (b, ids) := settle (a.add (.leaf l)) slots
    (b, a.size :: ids)

/-- The state of filling, between two nodes. -/
structure FillState where
  /-- The table so far. -/
  arena : Arena
  /-- The log so far. -/
  log : List Event := []

/-- Fills the gaps around the children of node `i`. -/
def fillChildren (g : GapSource) (i : NodeId) : EStateM Fault FillState Unit := do
  let s ← get
  let a := s.arena
  let n := a.node i
  match n.children with
  | [] => return
  | k :: ks =>
    let startOf : Slot → Int
      | .old j => (a.node j).start
      | .new l => l.span.start
    let endOf : Slot → Int
      | .old j => a.outerEnd j
      | .new l => l.span.stop
    let outer := if n.kind? = some .branch then some (n.start, n.stop) else none
    let x := g.fillList .new startOf endOf outer (.old k) (ks.map .old)
    let (b, ids) := a.settle x.value
    set ({ arena := b.setChildren i ids, log := s.log ++ x.events } : FillState)
    match x.fault? with
    | some e => throw e
    | none => return

/-- Fills the gaps of node `i` and what is under it, down to `depth` levels. -/
def fillWithin (g : GapSource) : Nat → NodeId → EStateM Fault FillState Unit
  | 0, _ => return
  | depth + 1, i => do
    (((← get).arena.node i).children).forM (fillWithin g depth)
    fillChildren g i

/-- Fills the gaps of node `i` and all that is under it. What was filled before a
fault stays. -/
def fill (a : Arena) (g : GapSource) (i : NodeId) : Filling Arena :=
  match (fillWithin g a.size i).run { arena := a } with
  | .ok _ s => ⟨s.arena, s.log, none⟩
  | .error e s => ⟨s.arena, s.log, some e⟩

end RakuTree.Arena
