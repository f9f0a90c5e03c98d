import RakuTree.Layout.Piece

/-!
# RakuTree.Gap

Filling the gaps of a tree with layout. Between two neighbours, and between a
branch and its outermost children, the source holds layout that no rule claimed;
filling puts the tokens of that layout into the child lists.

Children are filled before their parent, and the gaps of one child list from the
last to the first, then behind the last child, then in front of the first. The
order shows in the log and in what is already filled when a strict filling stops,
so a filling that stops still has a value: the tree as far as it got (`Filling`).

The gaps of one child list are filled by `fillList`, which knows nothing about
trees beyond where a child starts and ends. Trees and node tables share it.
-/

namespace RakuTree

/-- The value of a filling as far as it got, what is to be logged, and the fault that stopped it. A
filling that stopped has a `value` too. -/
structure Filling (α : Type) where
  /-- What was filled, up to the fault if there is one. -/
  value : α
  /-- What is to be logged, whether or not there is a `fault?`. -/
  events : List Event
  /-- Why the filling stopped, if it did. -/
  fault? : Option Fault

namespace Filling

/-- Nothing to do: `a` as it is, without events. -/
def done {α : Type} (a : α) : Filling α := ⟨a, [], none⟩

/-- The same filling, looked at through `f`. -/
def map {α β : Type} (f : α → β) (x : Filling α) : Filling β := { x with value := f x.value }

/-- Goes on with `f` unless the filling stopped. -/
def andThen {α : Type} (x : Filling α) (f : α → Filling α) : Filling α :=
  if x.fault?.isSome then x
  else
    let y := f x.value
    { y with events := x.events ++ y.events }

end Filling

/-- What `GapSource.read` needs to know to read a gap. -/
structure GapSource where
  /-- The source text that gaps are read from. -/
  src : Text
  /-- Bodies of here-docs, which are layout where they stand. -/
  docs : HereDocs
  /-- Does a gap that cannot be filled stop the filling? It is `Options.strictGaps`. -/
  strict : Bool

namespace GapSource

/-- The layout from `start` to `stop`. Neighbours that touch have no gap. A gap that
ends before it starts, or that starts below zero, is no gap either but worth a
warning. A gap that starts behind the end of the source cannot be read. -/
def read (g : GapSource) (start stop : Int) : Layout.Reading :=
  if start = stop then ⟨[], [], none⟩
  else if start < 0 ∨ stop < 0 ∨ stop < start then
    if g.strict then ⟨[], [], some (.gap (.malformed start stop))⟩
    else ⟨[], [.gapSkipped (.malformed start stop)], none⟩
  else
    let scanFrom := fun atLine =>
      Layout.scan g.docs g.strict start atLine (Text.slice g.src start stop)
    if start = 0 then scanFrom true
    else
      match Text.charAt? g.src (start - 1) with
      | none => ⟨[], [], some (.outside .text)⟩
      | some c => scanFrom (c == '\n')

/-- The gap from `start` to `stop`, as a filling that puts its tokens in front of
`ks`. -/
def fillBefore {α : Type} (g : GapSource) (ofLeaf : Leaf → α) (start stop : Int) (ks : List α) :
    Filling (List α) :=
  let r := g.read start stop
  ⟨r.tokens.map ofLeaf ++ ks, r.events, r.fault?⟩

/-- Fills the gaps between neighbours with what `g` reads, from the last gap to the first. -/
def fillBetween {α : Type} (g : GapSource) (ofLeaf : Leaf → α) (startOf endOf : α → Int) :
    List α → Filling (List α)
  | [] => .done []
  | [k] => .done [k]
  | k :: l :: ks =>
    ((fillBetween g ofLeaf startOf endOf (l :: ks)).andThen
      (g.fillBefore ofLeaf (endOf k) (startOf l))).map (k :: ·)

/-- Fills all gaps of the child list `k :: ks`: between neighbours and, for a branch
with the range `outer`, behind the last and in front of the first child. -/
def fillList {α : Type} (g : GapSource) (ofLeaf : Leaf → α) (startOf endOf : α → Int)
    (outer : Option (Int × Int)) (k : α) (ks : List α) : Filling (List α) :=
  let inner := g.fillBetween ofLeaf startOf endOf (k :: ks)
  match outer with
  | none => inner
  | some (start, stop) =>
    (inner.andThen fun all =>
      (g.fillBefore ofLeaf (endOf ((k :: ks).getLast (by simp))) stop []).map (all ++ ·)).andThen
      (g.fillBefore ofLeaf start (startOf k))

end GapSource

namespace Element

/-- Fills the gaps between some nodes that are filled inside, and those to the range `outer` around
them, if there is one. -/
def fillSiblings (g : GapSource) (outer : Option (Int × Int)) :
    List Element → Filling (List Element)
  | [] => .done []
  | k :: ks => g.fillList leaf start outerEnd outer k ks

mutual

/-- Fills the gaps of a node and all that is under it: first inside its children (`fillEach`), then
between them (`fillSiblings`). -/
def fill (g : GapSource) : Element → Filling Element
  | leaf l => .done (leaf l)
  | branch c s o ks =>
    ((fillEach g ks).andThen (fillSiblings g (some (s.start, s.stop)))).map (branch c s o)
  | contextualizer i s t o ks =>
    ((fillEach g ks).andThen (fillSiblings g none)).map (contextualizer i s t o)
  | bare s o => .done (bare s o)

/-- Fills the gaps inside each of some nodes by `fill`, from the first to the last. -/
def fillEach (g : GapSource) : List Element → Filling (List Element)
  | [] => .done []
  | k :: ks =>
    let x := fill g k
    if x.fault?.isSome then x.map (· :: ks)
    else
      let y := fillEach g ks
      ⟨x.value :: y.value, x.events ++ y.events, y.fault?⟩

end

end Element

end RakuTree
